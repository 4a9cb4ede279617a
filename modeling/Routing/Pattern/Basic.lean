import Routing.Segment

/-! Extraction patterns: what a path has to look like, item by item, for a batch of routes, with a
capture for each parameter, and the same in the notation of regular expressions. -/

namespace Routing

inductive Pattern.Item where
  | slash
  /-- A character, or the escapes of its bytes in either case. -/
  | char (c : Char)
  /-- The escape with these two digits in either case. -/
  | escape (h l : Char)
  /-- Captures one or more characters other than `/`. -/
  | segment
  /-- Captures one or more characters of any kind. -/
  | rest
  deriving DecidableEq

/-- A pattern is anchored at both ends. -/
structure Pattern where
  items : List Pattern.Item
  deriving DecidableEq

namespace Pattern

/-- Items of literal text. An escape that is left in normal text stands for itself. -/
def literal : Text → List Item
  | '%' :: h :: l :: s =>
    if Percent.isHex h && Percent.isHex l then .escape h l :: literal s
    else .char '%' :: literal (h :: l :: s)
  | c :: s => .char c :: literal s
  | [] => []

def ofSegment : Segment → List Item
  | .static text => literal text
  | .dynamic _ => [.segment]
  | .star _ => [.rest]
  | .epsilon => []

/-- Characters with a meaning of their own in the notation. -/
def isMeta (c : Char) : Bool :=
  ['\\', '.', '+', '*', '?', '(', ')', '|', '[', ']', '\x7b', '\x7d', '^', '$', '#', '&', '-',
    '~'].contains c

def quote (c : Char) : Text := if isMeta c then ['\\', c] else [c]

def segmentSource : Text := "([^/]+)".toList

def restSource : Text := "(.+)".toList

def Item.source : Item → Text
  | slash => ['/']
  | char c => "(?:".toList ++ quote c ++ "|(?i:".toList ++ Percent.escapeChar c ++ "))".toList
  | escape h l => "(?i:".toList ++ ['%', h, l] ++ [')']
  | segment => segmentSource
  | rest => restSource

def sourceOf (s : Segment) : Text := (ofSegment s).flatMap Item.source

def source (p : Pattern) : Text := '^' :: p.items.flatMap Item.source ++ ['$']

/-- Whether the notation closes with the capture of a star. -/
def closesWithStar (p : Pattern) : Bool := (restSource ++ ['$']).isSuffixOf p.source

end Pattern

/-- What builds patterns from their notation, of which only the refusals are left open, each with the
cause that it gives. -/
structure Compiler where
  compile : Text → Except Text Unit

def Compiler.lenient : Compiler := ⟨fun _ => .ok ()⟩

end Routing
