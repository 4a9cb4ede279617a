import Routing.Dict
import Routing.Normalizer

/-! The segments of a route: what a piece of a pattern between slashes stands for, which parameter
it declares, how literal it is, and how it is written in a path. -/

namespace Routing

/-- A parameter as a segment declares it. `decode` says whether captured values are decoded. -/
structure Param where
  name : Text
  decode : Bool
  deriving DecidableEq

inductive Segment where
  /-- Literal text in normal form. -/
  | static (text : Text)
  /-- One or more characters other than `/`. -/
  | dynamic (name : Text)
  /-- One or more characters of any kind. -/
  | star (name : Text)
  /-- The empty piece beside a leading, doubled or trailing `/`. -/
  | epsilon
  deriving DecidableEq

namespace Segment

/-- `:name` and `*name` declare a parameter unless the name is empty; other text is literal. -/
def parse (n : Normalizer) : Text → Segment
  | [] => .epsilon
  | ':' :: c :: name => .dynamic (c :: name)
  | '*' :: c :: name => .star (c :: name)
  | piece => .static (n.segment piece)

/-- A star may span slashes and reserved characters, so what it captures stays as it was sent. -/
def param? : Segment → Option Param
  | static _ => none
  | dynamic name => some ⟨name, true⟩
  | star name => some ⟨name, false⟩
  | epsilon => none

def isEpsilon : Segment → Bool
  | epsilon => true
  | _ => false

def digit : Segment → Nat
  | star _ => 1
  | epsilon => 2
  | dynamic _ => 3
  | static _ => 4

/-- The segment as written in a path, if its parameter has a value. Values of dynamic segments are
percent-encoded on demand, those of stars never. -/
def render (encode : Bool) (values : Dict Text) : Segment → Option Text
  | static text => some text
  | dynamic name =>
    (values.find? name).map fun v => if encode then Percent.encodeSegment v else v
  | star name => values.find? name
  | epsilon => some []

end Segment
end Routing
