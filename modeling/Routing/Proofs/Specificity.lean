import Mathlib.Data.Nat.Digits.Lemmas
import Routing.Proofs.Selection

/-! Specificities as numbers. A digit counts for less than a unit of the place before it, so of two
numbers of one length the first digit in which they differ decides, and since no digit is zero a longer
number exceeds all shorter ones. -/

namespace Routing

variable {ds es : List Nat}

/-- What stands in the lower places decides only where the place above them does not. -/
theorem compare_place {b x y m n : Nat} (hm : m < b) (hn : n < b) :
    compare (m + b * x) (n + b * y) = (compare x y).then (compare m n) := by
  have lt : ∀ {x y m n : Nat}, m < b → x < y → m + b * x < n + b * y := by
    intro x y m n hm h
    have hle : b * x + b ≤ b * y := Nat.mul_le_mul_left b h
    omega
  rcases Nat.lt_trichotomy x y with h | rfl | h
  · rw [Nat.compare_eq_lt.2 h, Nat.compare_eq_lt.2 (lt hm h)]
    rfl
  · rw [Nat.compare_eq_eq.2 rfl, Ordering.eq_then, Nat.compare_eq_ite_lt, Nat.compare_eq_ite_lt]
    simp only [Nat.add_lt_add_iff_right]
  · rw [Nat.compare_eq_gt.2 h, Nat.compare_eq_gt.2 (lt hn h)]
    rfl

theorem ofDigits_reverse_lt (h : ∀ d ∈ ds, d < 10) : Nat.ofDigits 10 ds.reverse < 10 ^ ds.length := by
  rw [← List.length_reverse]
  exact Nat.ofDigits_lt_base_pow_length (by decide) (by simpa using h)

theorem compare_eq_compare_ofDigits (hl : ds.length = es.length) (hd : ∀ d ∈ ds, d < 10)
    (he : ∀ e ∈ es, e < 10) :
    compare ds es = compare (Nat.ofDigits 10 ds.reverse) (Nat.ofDigits 10 es.reverse) := by
  induction ds generalizing es with
  | nil =>
    rw [List.length_eq_zero_iff.1 hl.symm]
    rfl
  | cons d ds ih =>
    obtain ⟨e, es, rfl⟩ := List.exists_cons_of_length_eq_add_one hl.symm
    have hl : ds.length = es.length := Nat.succ.inj hl
    rw [List.forall_mem_cons] at hd he
    have hlt := ofDigits_reverse_lt he.2
    rw [← hl] at hlt
    rw [List.compare_cons_cons, ih hl hd.2 he.2, Nat.ofDigits_reverse_cons, Nat.ofDigits_reverse_cons,
      ← hl, compare_place (ofDigits_reverse_lt hd.2) hlt]

theorem ofDigits_reverse_lt_of_length_lt (hl : ds.length < es.length) (hd : ∀ d ∈ ds, d < 10)
    (he : ∀ e ∈ es, 0 < e) : Nat.ofDigits 10 ds.reverse < Nat.ofDigits 10 es.reverse := by
  cases es with
  | nil => exact absurd hl (Nat.not_lt_zero _)
  | cons e es =>
    have hpos : 1 ≤ e := he e List.mem_cons_self
    calc Nat.ofDigits 10 ds.reverse < 10 ^ ds.length := ofDigits_reverse_lt hd
      _ ≤ 10 ^ es.length := Nat.pow_le_pow_right (by decide) (Nat.le_of_lt_succ hl)
      _ ≤ 10 ^ es.length * e := Nat.le_mul_of_pos_right _ hpos
      _ ≤ Nat.ofDigits 10 (e :: es).reverse := by
        rw [Nat.ofDigits_reverse_cons]
        exact Nat.le_add_left ..

namespace Specificity

/-- Decimal digits of which none is zero. -/
def Zeroless (s : Specificity) : Prop := ∀ d ∈ s.digits, 0 < d ∧ d < 10

/-- The number that is read from the text. Nothing is read as zero. -/
def number (s : Specificity) : Nat := Nat.ofDigitChars 10 s.text 0

example : number ⟨[4, 3, 1]⟩ = 431 := by decide

variable {a b s : Specificity}

theorem compare_of_length_lt (h : a.digits.length < b.digits.length) : compare a b = .lt := by
  change (compare a.digits.length b.digits.length).then _ = _
  rw [Nat.compare_eq_lt.2 h]
  rfl

theorem number_eq (h : ∀ d ∈ s.digits, d < 10) : s.number = Nat.ofDigits 10 s.digits.reverse := by
  have value : ∀ d < 10, (Char.ofNat ('0'.toNat + d)).toNat - '0'.toNat = d := by decide
  obtain ⟨ds⟩ := s
  rw [number, text]
  induction ds with
  | nil => rfl
  | cons d ds ih =>
    rw [List.forall_mem_cons] at h
    rw [List.map_cons, Nat.ofDigitChars_cons, Nat.ofDigitChars_eq_ofDigitChars_zero, ih h.2,
      value d h.1, Nat.ofDigits_reverse_cons, List.length_map, Nat.mul_zero, Nat.zero_add, Nat.add_comm]

theorem compare_eq_compare_number (ha : a.Zeroless) (hb : b.Zeroless) :
    compare a b = compare a.number b.number := by
  have ha' : ∀ d ∈ a.digits, d < 10 := fun d hd => (ha d hd).2
  have hb' : ∀ d ∈ b.digits, d < 10 := fun d hd => (hb d hd).2
  rw [number_eq ha', number_eq hb']
  rcases Nat.lt_trichotomy a.digits.length b.digits.length with h | h | h
  · have hlt := ofDigits_reverse_lt_of_length_lt h ha' fun d hd => (hb d hd).1
    rw [compare_of_length_lt h, Nat.compare_eq_lt.2 hlt]
  · rw [compare_of_length_eq h]
    exact compare_eq_compare_ofDigits h ha' hb'
  · have hlt := ofDigits_reverse_lt_of_length_lt h hb' fun d hd => (ha d hd).1
    rw [Std.OrientedCmp.gt_of_lt (compare_of_length_lt h), Nat.compare_eq_gt.2 hlt]

end Specificity

theorem Route.zeroless_specificity (r : Route) : r.specificity.Zeroless := by
  have digit : ∀ s : Segment, 0 < s.digit ∧ s.digit < 10 := by
    intro s
    cases s <;> simp [Segment.digit]
  intro d hd
  obtain ⟨s, -, rfl⟩ := List.mem_map.1 hd
  exact digit s

/-- The specificities of any two sequences of segments are ordered as the numbers that their texts
spell, and they are equal just when these are. -/
theorem Route.compare_specificity (r r' : Route) :
    compare r.specificity r'.specificity = compare r.specificity.number r'.specificity.number ∧
      (r.specificity = r'.specificity ↔ r.specificity.number = r'.specificity.number) := by
  have h := Specificity.compare_eq_compare_number r.zeroless_specificity r'.zeroless_specificity
  refine ⟨h, ?_⟩
  rw [← Std.LawfulEqOrd.compare_eq_iff_eq (a := r.specificity), h, Nat.compare_eq_eq]

end Routing
