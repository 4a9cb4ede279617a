import Routing.Percent.Escape

/-! The smallest parts of TOML text: blanks, comments, line ends, one-line strings and keys. -/

namespace Routing.Toml

/-- A reader takes a value off the front of a text. -/
abbrev Reader (α : Type) := Text → Option (α × Text)

def isBlank (c : Char) : Bool := c == ' ' || c == '\t'

/-- Characters that may stand in comments and strings: a tab, and all but control characters. -/
def isPlain (c : Char) : Bool := c == '\t' || (' ' ≤ c && c != '\x7f')

def skipBlanks (s : Text) : Text := s.dropWhile isBlank

def skipComment : Text → Text
  | '#' :: s => s.dropWhile isPlain
  | s => s

def lineBreak? : Text → Option Text
  | '\n' :: s => some s
  | '\r' :: '\n' :: s => some s
  | _ => none

/-- Drops the blanks and the comment that close a line, and the end of the line or of the text. -/
def lineEnd? (s : Text) : Option Text :=
  match skipComment (skipBlanks s) with
  | [] => some []
  | t => lineBreak? t

def skipLines (s : Text) : Text :=
  go false s
where
  go : Bool → Text → Text
    | _, [] => []
    | true, '\r' :: '\n' :: s => go false s
    | true, c :: s => if c == '\n' then go false s else if isPlain c then go true s else c :: s
    | false, '\r' :: '\n' :: s => go false s
    | false, c :: s =>
      if c == '#' then go true s
      else if c == '\n' || isBlank c then go false s
      else c :: s

/-- Where a reader stands in a string: in plain text, behind a backslash, or with this many digits
still to come of an escape that has this value so far. -/
inductive StringState where
  | plain
  | escape
  | digits (left value : Nat)

def simpleEscape? : Char → Option Char
  | 'b' => some '\x08'
  | 't' => some '\t'
  | 'n' => some '\n'
  | 'f' => some '\x0c'
  | 'r' => some '\r'
  | '"' => some '"'
  | '\\' => some '\\'
  | _ => none

def scalar? (n : Nat) : Option Char :=
  if n < 0xD800 ∨ (0xDFFF < n ∧ n < 0x110000) then some (Char.ofNat n) else none

def basicString? : StringState → Reader Text
  | _, [] => none
  | .plain, c :: s =>
    if c == '"' then some ([], s)
    else if c == '\\' then basicString? .escape s
    else if isPlain c then (basicString? .plain s).map (.map (c :: ·) id)
    else none
  | .escape, c :: s =>
    if c == 'u' then basicString? (.digits 4 0) s
    else if c == 'U' then basicString? (.digits 8 0) s
    else (simpleEscape? c).bind fun d => (basicString? .plain s).map (.map (d :: ·) id)
  | .digits left value, c :: s =>
    (Percent.hexValue? c).bind fun x =>
      if 1 < left then basicString? (.digits (left - 1) (16 * value + x)) s
      else (scalar? (16 * value + x)).bind fun d =>
        (basicString? .plain s).map (.map (d :: ·) id)

/-- The rest of a string in single quotes, which has no escapes. -/
def literalString? : Reader Text
  | [] => none
  | c :: s =>
    if c == '\x27' then some ([], s)
    else if isPlain c then (literalString? s).map (.map (c :: ·) id)
    else none

def isBare (c : Char) : Bool := c.isAlphanum || c == '-' || c == '_'

def keyPart? : Reader Text
  | '"' :: s => basicString? .plain s
  | '\x27' :: s => literalString? s
  | s =>
    if (s.takeWhile isBare).isEmpty then none
    else some (s.takeWhile isBare, s.dropWhile isBare)

/-- A key of at most this many parts, with dots between them and blanks around each. -/
def keyPath? : Nat → Reader (List Text)
  | 0, _ => none
  | n + 1, s => do
    let (part, s) ← keyPart? (skipBlanks s)
    match skipBlanks s with
    | '.' :: s => (keyPath? n s).map (.map (part :: ·) id)
    | s => some ([part], s)

/-- How deep keys, arrays and inline tables may be nested. -/
def maxDepth : Nat := 79

def key? : Reader (List Text) := keyPath? maxDepth

end Routing.Toml
