import Routing.Normalizer
import Routing.Proofs.Percent.Escapes

/-! Segments in normal form. A segment without a slash is either decoded and protected or left as
it is, and its normal form tells what it decodes to. -/

namespace Routing.Normalizer

open Percent

variable {r s t : Text}

theorem protect_eq_encodeWith (s : Text) :
    protect s = encodeWith (fun c => c ≠ '%' && c ≠ '/') s := by
  have h1 : escapeChar '%' = ['%', '2', '5'] := by decide +kernel
  have h2 : escapeChar '/' = ['%', '2', 'F'] := by decide +kernel
  unfold protect encodeWith
  congr 1
  funext c
  by_cases hp : c = '%'
  · simp [hp, h1]
  · by_cases hs : c = '/' <;> simp [hp, hs, h2]

theorem decode?_protect (s : Text) : decode? (protect s) = some s := by
  rw [protect_eq_encodeWith, decode?_encodeWith (by decide)]

theorem wellFormed_protect (s : Text) : wellFormed (protect s) := by
  rw [protect_eq_encodeWith]
  exact wellFormed_encodeWith (by decide)

theorem slash_not_mem_protect (s : Text) : '/' ∉ protect s := by
  rw [protect_eq_encodeWith]
  exact not_mem_encodeWith (by decide) (by decide) (by decide)

theorem protect_injective (h : protect s = protect t) : s = t := by
  have := decode?_protect t
  rw [← h, decode?_protect] at this
  exact Option.some.inj this

theorem protect_cons (c : Char) (s : Text) : protect (c :: s) =
    (if c = '%' then ['%', '2', '5'] else if c = '/' then ['%', '2', 'F'] else [c]) ++ protect s :=
  List.flatMap_cons

theorem protect_eq_nil : protect s = [] ↔ s = [] := by
  cases s with
  | nil => simp [protect]
  | cons c s =>
    rw [protect_cons]
    split_ifs <;> simp

theorem protect_of_not_mem (hp : '%' ∉ s) (hs : '/' ∉ s) : protect s = s := by
  induction s with
  | nil => rfl
  | cons c s ih =>
    rw [List.mem_cons, not_or] at hp hs
    rw [protect_cons, if_neg (Ne.symm hp.1), if_neg (Ne.symm hs.1), ih hp.2 hs.2]
    rfl

def Decodes (s t : Text) : Prop := wellFormed s ∧ decode? s = some t

theorem decodes_protect (s : Text) : Decodes (protect s) s :=
  ⟨wellFormed_protect s, decode?_protect s⟩

theorem decodeSegment_of_decodes (hs : '/' ∉ s) (h : Decodes s t) :
    decodeSegment s = protect t := by
  unfold decodeSegment
  split_ifs with hc
  · rw [h.2]
    rfl
  · have hp : '%' ∉ s := by simpa [h.1] using hc
    have ht : s = t := Option.some.inj ((decode?_of_not_mem hp).symm.trans h.2)
    rw [← ht, protect_of_not_mem hp hs]

theorem decodeSegment_of_not_decodes (h : ∀ t, ¬ Decodes s t) : decodeSegment s = s := by
  unfold decodeSegment
  split_ifs with hc
  · rw [Bool.and_eq_true] at hc
    cases hd : decode? s with
    | none => rfl
    | some t => exact absurd ⟨hc.2, hd⟩ (h t)
  · rfl

theorem decodeSegment_cases (hs : '/' ∉ s) :
    (∃ t, Decodes s t ∧ decodeSegment s = protect t) ∨
      (∀ t, ¬ Decodes s t) ∧ decodeSegment s = s := by
  by_cases h : ∃ t, Decodes s t
  · obtain ⟨t, ht⟩ := h
    exact .inl ⟨t, ht, decodeSegment_of_decodes hs ht⟩
  · rw [not_exists] at h
    exact .inr ⟨h, decodeSegment_of_not_decodes h⟩

theorem slash_not_mem_decodeSegment (hs : '/' ∉ s) : '/' ∉ decodeSegment s := by
  rcases decodeSegment_cases hs with ⟨t, -, h⟩ | ⟨-, h⟩
  · rw [h]
    exact slash_not_mem_protect t
  · rwa [h]

theorem decodeSegment_eq_nil (hs : '/' ∉ s) : decodeSegment s = [] ↔ s = [] := by
  rcases decodeSegment_cases hs with ⟨t, ht, h⟩ | ⟨-, h⟩
  · rw [h, protect_eq_nil]
    refine ⟨?_, ?_⟩
    · rintro rfl
      exact unescape_eq_nil (Utf8.decode?_eq_some_iff.1 ht.2)
    · rintro rfl
      exact (Option.some.inj ht.2).symm
  · rw [h]

theorem decodeSegment_idem (hs : '/' ∉ s) : decodeSegment (decodeSegment s) = decodeSegment s := by
  rcases decodeSegment_cases hs with ⟨t, ht, h⟩ | ⟨-, h⟩
  · rw [h]
    exact decodeSegment_of_decodes (slash_not_mem_protect t) (decodes_protect t)
  · rw [h, h]

/-- Segments of one normal form stand for one value, be they malformed or not. -/
theorem decodeOrKeep_congr (hr : '/' ∉ r) (hs : '/' ∉ s) (h : decodeSegment r = decodeSegment s) :
    decodeOrKeep r = decodeOrKeep s := by
  rcases decodeSegment_cases hr with ⟨t, ht, h1⟩ | ⟨hn, h1⟩ <;>
    rcases decodeSegment_cases hs with ⟨u, hu, h2⟩ | ⟨hm, h2⟩
  · obtain rfl : t = u := protect_injective (by rw [← h1, ← h2, h])
    rw [decodeOrKeep, decodeOrKeep, ht.2, hu.2]
    rfl
  · exact absurd (decodes_protect t) (by rw [← h1, h, h2]; exact hm t)
  · exact absurd (decodes_protect u) (by rw [← h2, ← h, h1]; exact hn u)
  · rw [← h1, ← h2, h]

end Routing.Normalizer
