/-! How literal a route is: one digit per segment, compared as the number that the digits spell. -/

namespace Routing

/-- Digits from the first segment to the last. None of them is zero. -/
structure Specificity where
  digits : List Nat
  deriving DecidableEq

namespace Specificity

/-- Without zeros the longer number is the larger one, and of two numbers of one length the first
digit in which they differ decides. -/
instance : Ord Specificity where
  compare a b := (compare a.digits.length b.digits.length).then (compare a.digits b.digits)

def text (s : Specificity) : List Char := s.digits.map fun d => Char.ofNat ('0'.toNat + d)

end Specificity
end Routing
