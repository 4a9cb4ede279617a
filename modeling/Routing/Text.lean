/-! Text as a list of characters, cut at separators and trimmed by one character at either end. -/

namespace Routing

/-- Text is the sequence of its Unicode characters. -/
abbrev Text := List Char

namespace Text

/-- The part before the first `sep`, and the part after it if there is one. -/
def cut (sep : Char) : Text → Text × Option Text
  | [] => ([], none)
  | c :: s => if c = sep then ([], some s) else (cut sep s).map (c :: ·) id

def dropLeading (c : Char) : Text → Text
  | [] => []
  | d :: s => if d = c then s else d :: s

def dropTrailing (c : Char) (s : Text) : Text :=
  if s.getLast? = some c then s.dropLast else s

def endsWith (c : Char) (s : Text) : Bool := s.getLast? == some c

theorem cut_of_not_mem {sep : Char} {s : Text} (h : sep ∉ s) : cut sep s = (s, none) := by
  induction s with
  | nil => rfl
  | cons c s ih => grind [cut]

theorem cut_append_sep {sep : Char} {s : Text} (h : sep ∉ s) (t : Text) :
    cut sep (s ++ sep :: t) = (s, some t) := by
  induction s with
  | nil => simp [cut]
  | cons c s ih => grind [cut]

theorem cut_eq (sep : Char) (s : Text) : cut sep s =
    (s.takeWhile (· ≠ sep), if sep ∈ s then some ((s.dropWhile (· ≠ sep)).drop 1) else none) := by
  induction s with
  | nil => rfl
  | cons c s ih =>
    by_cases hc : c = sep
    · simp [cut, hc]
    · simp [cut, hc, Ne.symm hc, ih]

theorem dropTrailing_append_singleton (c : Char) (s : Text) : dropTrailing c (s ++ [c]) = s := by
  simp [dropTrailing]

end Text
end Routing
