import Routing.Pattern.Basic

/-! What a pattern captures from a text. Of all ways to match, the first counts: a literal character
before its escapes, and a longer capture before a shorter one. The search tries alternatives in this
order; the table computes the same from the last item to the first, for all suffixes of the text at
once, so that no suffix is searched twice. -/

namespace Routing.Pattern

structure Spelling where
  text : Text
  caseless : Bool

def sameLetter (a b : Char) : Bool := a.toUpper == b.toUpper

def Spelling.begins (p : Spelling) (s : Text) : Bool :=
  if p.caseless then go p.text s else p.text.isPrefixOf s
where
  go : Text → Text → Bool
    | [], _ => true
    | a :: p, b :: s => sameLetter a b && go p s
    | _ :: _, [] => false

/-- The spellings of a fixed item, the preferred one first. -/
def Item.spellings : Item → List Spelling
  | slash => [⟨['/'], false⟩]
  | char c => [⟨[c], false⟩, ⟨Percent.escapeChar c, true⟩]
  | escape h l => [⟨['%', h, l], true⟩]
  | segment | rest => []

/-- The captures in the rest of a text, if it matches. -/
abbrev Outcome := Option (List Text)

def extend (c : Char) : List Text → List Text
  | [] => []
  | t :: ts => (c :: t) :: ts

def searchFixed (spellings : List Spelling) (next : Text → Outcome) (s : Text) : Outcome :=
  spellings.findSome? fun p => if p.begins s then next (s.drop p.text.length) else none

def searchRun (admits : Char → Bool) (next : Text → Outcome) : Text → Outcome
  | [] => none
  | c :: s =>
    if admits c then
      ((searchRun admits next s).map (extend c)).or ((next s).map ([c] :: ·))
    else none

def Item.search (next : Text → Outcome) : Item → Text → Outcome
  | segment => searchRun (· != '/') next
  | rest => searchRun (fun _ => true) next
  | i => searchFixed i.spellings next

/-- The captures of the first way to match all items and use up the text. -/
def search : List Item → Text → Outcome
  | [], s => if s.isEmpty then some [] else none
  | i :: is, s => i.search (search is) s

/-- The outcomes for the suffixes of a text, the whole text first and the empty suffix last. -/
abbrev Row := List Outcome

def rowOf (next : Text → Outcome) : Text → Row
  | [] => [next []]
  | c :: s => next (c :: s) :: rowOf next s

def Row.get (row : Row) (n : Nat) : Outcome := row[n]?.join

def rowFixed (spellings : List Spelling) : Text → Row → Row
  | [], row => [spellings.findSome? fun p => if p.begins [] then row.get p.text.length else none]
  | c :: s, row =>
    (spellings.findSome? fun p => if p.begins (c :: s) then row.get p.text.length else none)
      :: rowFixed spellings s row.tail

def rowRun (admits : Char → Bool) : Text → Row → Row
  | [], _ => [none]
  | c :: s, row =>
    let longer := rowRun admits s row.tail
    (if admits c then ((longer.get 0).map (extend c)).or ((row.get 1).map ([c] :: ·)) else none)
      :: longer

def Item.row (s : Text) (row : Row) : Item → Row
  | segment => rowRun (· != '/') s row
  | rest => rowRun (fun _ => true) s row
  | i => rowFixed i.spellings s row

def table (s : Text) (items : List Item) : Row :=
  items.foldr (fun i row => i.row s row) (rowOf (fun r => if r.isEmpty then some [] else none) s)

def captures? (p : Pattern) (s : Text) : Option (List Text) := (table s p.items).get 0

theorem Spelling.length_le_of_go {p s : Text} (h : Spelling.begins.go p s = true) :
    p.length ≤ s.length := by
  induction p generalizing s with
  | nil => simp
  | cons a p ih =>
    cases s with
    | nil => simp [Spelling.begins.go] at h
    | cons b s =>
      simp only [Spelling.begins.go, Bool.and_eq_true] at h
      simpa using ih h.2

theorem Spelling.length_le {p : Spelling} {s : Text} (h : p.begins s = true) :
    p.text.length ≤ s.length := by
  unfold Spelling.begins at h
  split at h
  · exact length_le_of_go h
  · exact (List.isPrefixOf_iff_prefix.1 h).length_le

theorem get_rowOf (f : Text → Outcome) {s : Text} {n : Nat} (h : n ≤ s.length) :
    (rowOf f s).get n = f (s.drop n) := by
  induction s generalizing n with
  | nil =>
    obtain rfl : n = 0 := by simpa using h
    rfl
  | cons c s ih =>
    cases n with
    | zero => rfl
    | succ n => simpa [rowOf, Row.get] using ih (by simpa using h)

theorem tail_rowOf (f : Text → Outcome) (c : Char) (s : Text) :
    (rowOf f (c :: s)).tail = rowOf f s := rfl

theorem findSome_get_rowOf (spellings : List Spelling) (f : Text → Outcome) (s : Text) :
    (spellings.findSome? fun p => if p.begins s then (rowOf f s).get p.text.length else none) =
      searchFixed spellings f s := by
  unfold searchFixed
  congr 1
  funext p
  split
  · next h => exact get_rowOf f (Spelling.length_le h)
  · rfl

theorem rowFixed_rowOf (spellings : List Spelling) (f : Text → Outcome) (s : Text) :
    rowFixed spellings s (rowOf f s) = rowOf (searchFixed spellings f) s := by
  induction s with
  | nil => rw [rowFixed, findSome_get_rowOf, rowOf]
  | cons c s ih => rw [rowFixed, tail_rowOf, ih, findSome_get_rowOf, ← rowOf]

theorem rowRun_rowOf (admits : Char → Bool) (f : Text → Outcome) (s : Text) :
    rowRun admits s (rowOf f s) = rowOf (searchRun admits f) s := by
  induction s with
  | nil => rfl
  | cons c s ih =>
    have next : (rowOf f (c :: s)).get 1 = f s := get_rowOf f (by simp)
    have longer := get_rowOf (searchRun admits f) (Nat.zero_le s.length)
    rw [rowRun, tail_rowOf, ih, next, longer, List.drop_zero]
    rfl

theorem row_rowOf (i : Item) (f : Text → Outcome) (s : Text) :
    i.row s (rowOf f s) = rowOf (i.search f) s := by
  cases i with
  | segment => exact rowRun_rowOf _ f s
  | rest => exact rowRun_rowOf _ f s
  | slash => exact rowFixed_rowOf _ f s
  | char c => exact rowFixed_rowOf _ f s
  | escape h l => exact rowFixed_rowOf _ f s

theorem table_eq_rowOf (s : Text) (items : List Item) : table s items = rowOf (search items) s := by
  induction items with
  | nil => rfl
  | cons i is ih => rw [table, List.foldr_cons, ← table, ih, row_rowOf]; rfl

theorem captures?_eq_search (p : Pattern) (s : Text) : p.captures? s = search p.items s := by
  rw [captures?, table_eq_rowOf, get_rowOf _ (Nat.zero_le _), List.drop_zero]

end Routing.Pattern
