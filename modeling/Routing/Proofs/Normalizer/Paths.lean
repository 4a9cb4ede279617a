import Routing.Proofs.Pattern.Literal

/-! Whole paths in normal form. Normalization goes segment by segment and neither makes nor removes a
slash, so a cut of the normal form at a slash comes from a cut of the path. -/

namespace Routing

theorem not_mem_of_mem_splitOn {c : Char} {s t : Text} (h : t ∈ s.splitOn c) : c ∉ t := by
  induction s generalizing t with
  | nil =>
    obtain rfl : t = [] := by simpa using h
    simp
  | cons d s ih =>
    rw [List.splitOn_cons_eq_if_modifyHead] at h
    split_ifs at h with hd
    · rcases List.mem_cons.1 h with rfl | h
      · simp
      · exact ih h
    · obtain ⟨u, us, hu⟩ := List.exists_cons_of_ne_nil (List.splitOn_ne_nil c s)
      rw [hu, List.modifyHead_cons] at h
      rw [hu] at ih
      rcases List.mem_cons.1 h with rfl | h
      · rw [List.mem_cons, not_or]
        exact ⟨fun he => hd (by simp [he]), ih (by simp)⟩
      · exact ih (by simp [h])

theorem intercalate_append {c : Char} {l m : List Text} (hl : l ≠ []) (hm : m ≠ []) :
    [c].intercalate (l ++ m) = [c].intercalate l ++ c :: [c].intercalate m := by
  induction l with
  | nil => exact absurd rfl hl
  | cons a l ih =>
    by_cases h : l = []
    · subst h
      rw [List.singleton_append, List.intercalate_cons_of_ne_nil hm, List.intercalate_singleton]
      simp
    · rw [List.cons_append, List.intercalate_cons_of_ne_nil (by simp [h]), ih h,
        List.intercalate_cons_of_ne_nil h]
      simp

theorem splitOn_intercalate_flatMap {c : Char} {l : List Text} (h : l ≠ []) :
    ([c].intercalate l).splitOn c = l.flatMap (·.splitOn c) := by
  induction l with
  | nil => exact absurd rfl h
  | cons s l ih =>
    by_cases hl : l = []
    · subst hl
      simp
    · rw [List.intercalate_cons_of_ne_nil hl, List.append_assoc, List.singleton_append,
        List.splitOn_append_cons_self, ih hl, List.flatMap_cons]

namespace Normalizer

/-- Normalizers that go segment by segment, keep the slashes, and whose normal forms are read back
by the items of their text. -/
structure Faithful (n : Normalizer) : Prop where
  path_eq : ∀ p, n.path p = ['/'].intercalate ((p.splitOn '/').map n.segment)
  slash_not_mem : ∀ {s}, '/' ∉ s → '/' ∉ n.segment s
  eq_nil : ∀ {s}, '/' ∉ s → (n.segment s = [] ↔ s = [])
  reads : ∀ {s}, '/' ∉ s → Pattern.Reads (Pattern.literal (n.segment s)) s []

theorem faithful_percent : Faithful percent where
  path_eq _ := rfl
  slash_not_mem := slash_not_mem_decodeSegment
  eq_nil := decodeSegment_eq_nil
  reads := Pattern.reads_literal_decodeSegment

theorem faithful_identity : Faithful identity where
  path_eq p := by simp [identity]
  slash_not_mem h := h
  eq_nil _ := Iff.rfl
  reads _ := Pattern.reads_literal_self _

theorem faithful_of_eq {n : Normalizer} (h : n = .percent ∨ n = .identity) : n.Faithful := by
  rcases h with rfl | rfl
  · exact faithful_percent
  · exact faithful_identity

namespace Faithful

variable {n : Normalizer} {a b r s u v : Text}

theorem path_of_not_mem (h : n.Faithful) (hs : '/' ∉ s) : n.path s = n.segment s := by
  rw [h.path_eq, List.splitOn_eq_singleton hs, List.map_singleton, List.intercalate_singleton]

theorem path_nil (h : n.Faithful) : n.path [] = [] := by
  rw [h.path_of_not_mem (by simp)]
  exact (h.eq_nil (by simp)).2 rfl

theorem path_append (h : n.Faithful) (a b : Text) :
    n.path (a ++ '/' :: b) = n.path a ++ '/' :: n.path b := by
  rw [h.path_eq, List.splitOn_append_cons_self, List.map_append,
    intercalate_append (by simp) (by simp), ← h.path_eq, ← h.path_eq]

theorem splitOn_path (h : n.Faithful) (r : Text) :
    (n.path r).splitOn '/' = (r.splitOn '/').map n.segment := by
  rw [h.path_eq, List.splitOn_intercalate]
  · intro s hs
    obtain ⟨t, ht, rfl⟩ := List.mem_map.1 hs
    exact h.slash_not_mem (not_mem_of_mem_splitOn ht)
  · simp

theorem exists_of_path_eq_append (h : n.Faithful) (hr : n.path r = u ++ '/' :: v) :
    ∃ a b, r = a ++ '/' :: b ∧ n.path a = u ∧ n.path b = v := by
  have hs := h.splitOn_path r
  rw [hr, List.splitOn_append_cons_self, eq_comm, List.map_eq_append_iff] at hs
  obtain ⟨l, m, hlm, hl, hm⟩ := hs
  have free : ∀ s ∈ l ++ m, '/' ∉ s := fun s hs => not_mem_of_mem_splitOn (hlm ▸ hs)
  have hl0 : l ≠ [] := by
    rintro rfl
    exact List.splitOn_ne_nil _ _ hl.symm
  have hm0 : m ≠ [] := by
    rintro rfl
    exact List.splitOn_ne_nil _ _ hm.symm
  refine ⟨['/'].intercalate l, ['/'].intercalate m, ?_, ?_, ?_⟩
  · rw [← intercalate_append hl0 hm0, ← hlm, List.intercalate_splitOn]
  · rw [h.path_eq, List.splitOn_intercalate _ (fun s hs => free s (by simp [hs])) hl0, hl,
      List.intercalate_splitOn]
  · rw [h.path_eq, List.splitOn_intercalate _ (fun s hs => free s (by simp [hs])) hm0, hm,
      List.intercalate_splitOn]

theorem slash_mem_path (h : n.Faithful) (hr : '/' ∈ r) : '/' ∈ n.path r := by
  obtain ⟨a, b, rfl⟩ := List.append_of_mem hr
  rw [h.path_append]
  simp

theorem path_eq_nil (h : n.Faithful) : n.path r = [] ↔ r = [] := by
  refine ⟨fun hr => ?_, fun hr => hr ▸ h.path_nil⟩
  have hs : '/' ∉ r := fun hm => by simpa [hr] using h.slash_mem_path hm
  rwa [h.path_of_not_mem hs, h.eq_nil hs] at hr

end Faithful
end Normalizer
end Routing
