import Routing.Percent.Decode
import Mathlib.Tactic

/-! The characters of escapes, and what is well formed. Encoding writes nothing but safe characters
and escapes, so the encoded text is well formed and holds no separator that is not safe. -/

namespace Routing.Percent

variable {safe : Char → Bool} {s t : Text} {c d : Char} {x : Nat}

theorem eq_ofNat_of_hexValue? (h : hexValue? c = some x) : ∃ n < 128, c = Char.ofNat n := by
  refine ⟨c.toNat, ?_, (Char.ofNat_toNat c).symm⟩
  have le : ∀ {a : Char}, c ≤ a → c.toNat ≤ a.toNat := fun h => h
  unfold hexValue? at h
  split_ifs at h with h1 h2 h3
  · have := le h1.2
    simp at this
    omega
  · have := le h2.2
    simp at this
    omega
  · have := le h3.2
    simp at this
    omega

theorem toUpper_of_hexValue? (h : hexValue? c = some x) :
    x < 16 ∧ c.toUpper = hexDigit x ∧ (hexDigit x).toUpper = hexDigit x := by
  obtain ⟨n, hn, rfl⟩ := eq_ofNat_of_hexValue? h
  have all : ∀ n < 128, ∀ y ∈ hexValue? (Char.ofNat n),
      y < 16 ∧ (Char.ofNat n).toUpper = hexDigit y ∧ (hexDigit y).toUpper = hexDigit y := by
    decide +kernel
  exact all n hn x h

theorem ne_of_hexValue? (hd : hexValue? d = none) (h : hexValue? c = some x) : c ≠ d := by
  rintro rfl
  exact nomatch hd.symm.trans h

theorem ne_percent_of_hexValue? (h : hexValue? c = some x) : c ≠ '%' := ne_of_hexValue? (by decide) h

theorem isHex_iff : isHex c ↔ ∃ x, hexValue? c = some x := Option.isSome_iff_exists

theorem mem_escapeChar (h : d ∈ escapeChar c) : d = '%' ∨ ∃ x < 16, d = hexDigit x := by
  obtain ⟨b, -, hb⟩ := List.mem_flatMap.1 h
  have := b.toNat_lt
  simp only [escapeByte, List.mem_cons, List.not_mem_nil, or_false] at hb
  rcases hb with rfl | rfl | rfl
  · exact .inl rfl
  · exact .inr ⟨_, by omega, rfl⟩
  · exact .inr ⟨_, by omega, rfl⟩

theorem hexDigit_isAlphanum : ∀ x < 16, (hexDigit x).isAlphanum = true := by decide

theorem mem_escapeChar_ne (hc : d ≠ '%') (hd : d.isAlphanum = false) : d ∉ escapeChar c := by
  intro h
  rcases mem_escapeChar h with rfl | ⟨x, hx, rfl⟩
  · exact hc rfl
  · simp [hexDigit_isAlphanum x hx] at hd

theorem not_mem_encodeWith (hs : safe d = false) (hc : d ≠ '%') (hd : d.isAlphanum = false) :
    d ∉ encodeWith safe s := by
  intro h
  obtain ⟨c, -, hm⟩ := List.mem_flatMap.1 h
  split_ifs at hm with h
  · rw [List.mem_singleton.1 hm, h] at hs
    exact nomatch hs
  · exact mem_escapeChar_ne hc hd hm

theorem wellFormed_cons (h : c ≠ '%') : wellFormed (c :: s) = wellFormed s := by
  rw [wellFormed]
  · intro _ _ _ hc
    exact absurd hc h
  · exact h

theorem wellFormed_escape_append (b : UInt8) : wellFormed (escapeByte b ++ s) = wellFormed s := by
  have hb := b.toNat_lt
  have h := hexValue?_hexDigit (b.toNat / 16) (by omega)
  have l := hexValue?_hexDigit (b.toNat % 16) (by omega)
  simp [escapeByte, wellFormed, isHex, h, l]

theorem wellFormed_escapeChar_append : wellFormed (escapeChar c ++ s) = wellFormed s := by
  unfold escapeChar
  induction String.utf8EncodeChar c with
  | nil => rfl
  | cons b r ih => rw [List.flatMap_cons, List.append_assoc, wellFormed_escape_append, ih]

theorem wellFormed_encodeWith_append (h : safe '%' = false) :
    wellFormed (encodeWith safe s ++ t) = wellFormed t := by
  induction s with
  | nil => rfl
  | cons c s ih =>
    rw [encodeWith, List.flatMap_cons, ← encodeWith, List.append_assoc]
    split_ifs with hc
    · rw [List.singleton_append, wellFormed_cons (by rintro rfl; simp [h] at hc), ih]
    · rw [wellFormed_escapeChar_append, ih]

theorem wellFormed_encodeWith (h : safe '%' = false) : wellFormed (encodeWith safe s) := by
  rw [← List.append_nil (encodeWith safe s), wellFormed_encodeWith_append h]
  rfl

/-- Every percent sign is followed by two characters that `P` holds of. -/
def EachEscape (P : Char → Char → Prop) (s : Text) : Prop :=
  ∀ u v, s = u ++ '%' :: v → ∃ a b w, v = a :: b :: w ∧ P a b

namespace EachEscape

variable {P : Char → Char → Prop} {a b : Char}

theorem of_not_mem (h : '%' ∉ s) : EachEscape P s := by
  rintro u v rfl
  simp at h

theorem of_append (h : EachEscape P (s ++ t)) : EachEscape P t :=
  fun u v ht => h (s ++ u) v (by rw [ht, List.append_assoc])

theorem append (hs : EachEscape P s) (ht : EachEscape P t) : EachEscape P (s ++ t) := by
  intro u v h
  rcases List.append_eq_append_iff.1 h with ⟨x, -, hx⟩ | ⟨x, rfl, hx⟩
  · exact ht x v hx
  · cases x with
    | nil => exact ht [] v hx.symm
    | cons c x =>
      -- the percent sign stands in the first text, and its escape ends there
      obtain ⟨rfl, rfl⟩ := List.cons.inj hx
      obtain ⟨a, b, w, rfl, hab⟩ := hs u x rfl
      exact ⟨a, b, w ++ t, rfl, hab⟩

theorem flatMap {α : Type} {l : List α} {f : α → Text} (h : ∀ a ∈ l, EachEscape P (f a)) :
    EachEscape P (l.flatMap f) := by
  induction l with
  | nil => exact of_not_mem (by simp)
  | cons a l ih =>
    rw [List.forall_mem_cons] at h
    rw [List.flatMap_cons]
    exact h.1.append (ih h.2)

theorem single (hab : P a b) (ha : a ≠ '%') (hb : b ≠ '%') : EachEscape P ['%', a, b] := by
  intro u v h
  cases u with
  | nil => exact ⟨a, b, [], (List.cons.inj h).2.symm, hab⟩
  | cons c u =>
    have hm : '%' ∈ [a, b] := by
      rw [(List.cons.inj h).2]
      simp
    simp [ha.symm, hb.symm] at hm

end EachEscape

theorem ne_percent_of_isHex (h : isHex c) : c ≠ '%' := by
  obtain ⟨x, hx⟩ := isHex_iff.1 h
  exact ne_percent_of_hexValue? hx

theorem wellFormed_iff_eachEscape :
    wellFormed s ↔ EachEscape (fun a b => isHex a ∧ isHex b) s := by
  fun_induction wellFormed s with
  | case1 a b s ih =>
    rw [Bool.and_eq_true, Bool.and_eq_true, ih]
    constructor
    · rintro ⟨hab, hs⟩
      exact (EachEscape.single hab (ne_percent_of_isHex hab.1) (ne_percent_of_isHex hab.2)).append hs
    · intro h
      obtain ⟨x, y, w, hw, hab⟩ := h [] (a :: b :: s) rfl
      obtain ⟨rfl, rfl, -⟩ : a = x ∧ b = y ∧ s = w := by simpa using hw
      exact ⟨hab, h.of_append (s := ['%', a, b])⟩
  | case2 s hs =>
    refine iff_of_false (by simp) fun h => ?_
    obtain ⟨a, b, w, rfl, -⟩ := h [] s rfl
    exact hs a b w rfl
  | case3 c s hc hp ih =>
    rw [ih]
    refine ⟨fun h => ?_, fun h => h.of_append (s := [c])⟩
    have hn : '%' ∉ [c] := by simpa using Ne.symm hp
    exact (EachEscape.of_not_mem hn).append h
  | case4 => exact iff_of_true rfl (.of_not_mem (by simp))

theorem wellFormed_of_not_mem (hp : '%' ∉ s) : wellFormed s := by
  induction s with
  | nil => rfl
  | cons c s ih =>
    rw [List.mem_cons, not_or] at hp
    rw [wellFormed_cons (Ne.symm hp.1), ih hp.2]

theorem unescape_of_not_mem (hp : '%' ∉ s) : unescape s = Utf8.encode s := by
  induction s with
  | nil => rfl
  | cons c s ih =>
    rw [List.mem_cons, not_or] at hp
    rw [unescape_cons (Ne.symm hp.1), ih hp.2, Utf8.encode_cons]

theorem decode?_of_not_mem (hp : '%' ∉ s) : decode? s = some s := by
  rw [decode?, unescape_of_not_mem hp, Utf8.decode?_encode]

theorem wellFormed_cases (h : wellFormed s) :
    s = [] ∨ (∃ c t, c ≠ '%' ∧ s = c :: t ∧ wellFormed t) ∨
      ∃ a b x y t, hexValue? a = some x ∧ hexValue? b = some y ∧ s = '%' :: a :: b :: t ∧
        wellFormed t := by
  match s with
  | [] => exact .inl rfl
  | c :: t =>
    by_cases hc : c = '%'
    · subst hc
      match t with
      | [] => simp [wellFormed] at h
      | [_] => simp [wellFormed] at h
      | a :: b :: t =>
        rw [wellFormed, Bool.and_eq_true, Bool.and_eq_true, isHex_iff, isHex_iff] at h
        obtain ⟨⟨⟨x, ha⟩, y, hb⟩, ht⟩ := h
        exact .inr (.inr ⟨a, b, x, y, t, ha, hb, rfl, ht⟩)
    · exact .inr (.inl ⟨c, t, hc, rfl, wellFormed_cons hc ▸ h⟩)

theorem unescape_escape {a b : Char} {y : Nat} (ha : hexValue? a = some x) (hb : hexValue? b = some y) :
    unescape ('%' :: a :: b :: s) = UInt8.ofNat (16 * x + y) :: unescape s := by
  rw [unescape, ha, hb]

theorem unescape_eq_nil (h : unescape s = []) : s = [] := by
  revert h
  fun_cases unescape s <;> simp_all

theorem decodeOrKeep_ne_nil (h : s ≠ []) : decodeOrKeep s ≠ [] := by
  rw [decodeOrKeep]
  cases hd : decode? s with
  | none => exact h
  | some t =>
    rintro rfl
    exact h (unescape_eq_nil (Utf8.decode?_eq_some_iff.1 hd))

end Routing.Percent
