import Routing.Proofs.Percent.Escapes
import Routing.Query.Render

/-! What a written query looks like: it is empty or begins with its mark, its pieces hold no separator,
and it holds no `#`. -/

namespace Routing.Query

variable {key t : Text} {v : Value}

theorem not_mem_encodeComponent {c : Char} (hs : Percent.componentSafe c = false) (hc : c ≠ '%')
    (s : Text) : c ∉ Percent.encodeComponent s := by
  refine Percent.not_mem_encodeWith hs hc ?_
  simpa [Percent.componentSafe] using (Bool.or_eq_false_iff.1 hs).1

/-- What is escaped wherever it occurs appears in no piece, unless it marks one. -/
theorem not_mem_pieces {c : Char} (hs : Percent.componentSafe c = false) (hc : c ≠ '%')
    (hm : c ∉ ['[', ']', '=']) (h : t ∈ v.pieces key) : c ∉ t := by
  simp only [List.mem_cons, List.not_mem_nil, or_false, not_or] at hm
  cases v with
  | single s =>
    rw [List.mem_singleton.1 h]
    simp [not_mem_encodeComponent hs hc, hm]
  | multiple ss =>
    obtain ⟨s, -, rfl⟩ := List.mem_map.1 h
    simp [not_mem_encodeComponent hs hc, hm]

theorem eq_mem_pieces (h : t ∈ v.pieces key) : '=' ∈ t := by
  cases v with
  | single s =>
    rw [List.mem_singleton.1 h]
    simp
  | multiple ss =>
    obtain ⟨s, -, rfl⟩ := List.mem_map.1 h
    simp

theorem not_mem_intercalate {c d : Char} {ts : List Text} (hd : d ≠ c) (h : ∀ t ∈ ts, d ∉ t) :
    d ∉ [c].intercalate ts := by
  induction ts with
  | nil => simp
  | cons t ts ih =>
    rw [List.forall_mem_cons] at h
    by_cases hn : ts = []
    · subst hn
      simpa using h.1
    · rw [List.intercalate_cons_of_ne_nil hn]
      simp [h.1, ih h.2, hd]

theorem joinPieces_eq (ts : List Text) :
    joinPieces ts = if ts = [] then [] else '?' :: ['&'].intercalate ts := by
  cases ts with
  | nil => rfl
  | cons t ts => exact (if_neg (List.cons_ne_nil t ts)).symm

theorem write_cases (entries : List (Text × Option Value)) :
    write entries = [] ∨ ∃ q, write entries = '?' :: q := by
  rw [write, joinPieces_eq]
  split_ifs
  · exact .inl rfl
  · exact .inr ⟨_, rfl⟩

theorem hash_not_mem_joinPieces {ts : List Text} (h : ∀ t ∈ ts, '#' ∉ t) : '#' ∉ joinPieces ts := by
  rw [joinPieces_eq]
  split_ifs
  · exact List.not_mem_nil
  · rw [List.mem_cons, not_or]
    exact ⟨by decide, not_mem_intercalate (by decide) h⟩

theorem hash_not_mem_write (entries : List (Text × Option Value)) : '#' ∉ write entries := by
  apply hash_not_mem_joinPieces
  intro t ht
  obtain ⟨⟨key, v⟩, -, ht⟩ := List.mem_flatMap.1 ht
  cases v with
  | none => simp at ht
  | some v => exact not_mem_pieces (by decide) (by decide) (by decide) ht

end Routing.Query
