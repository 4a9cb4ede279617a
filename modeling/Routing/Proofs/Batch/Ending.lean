import Routing.Proofs.Batch.Lifting

/-! The end of a pattern's notation. The notation is plain text, put together from static texts of any
kind, and its end still tells whether a star comes last: what is written for a character of static text
is closed by a group of its own, so none of it ends as the capture of a star does. -/

namespace Routing

namespace Segment

theorem any_isStar_iff {o : Option Segment} :
    o.any isStar = true ↔ ∃ name, o = some (.star name) := by
  match o with
  | none => simp
  | some s => cases s <;> simp [isStar]

theorem exists_of_any_isStar {ss : List Segment} (h : ss.getLast?.any isStar = true) :
    ∃ vs name, ss = vs ++ [.star name] := by
  obtain ⟨name, hl⟩ := any_isStar_iff.1 h
  obtain ⟨vs, hv⟩ := List.getLast?_eq_some_iff.1 hl
  exact ⟨vs, name, hv⟩

end Segment

namespace Pattern

theorem reverse_restSource : restSource.reverse = [')', '+', '.', '('] := by decide

/-- Every other notation ends differently within its last four characters. -/
theorem source_ends {i : Item} (hi : i ≠ .rest) : ∃ u v, i.source = u ++ v ∧
    (v = ['/'] ∨ v = [')', ')'] ∨ v = ['/', ']', '+', ')'] ∨ ∃ a b, v = ['%', a, b, ')']) := by
  cases i with
  | rest => exact absurd rfl hi
  | slash => exact ⟨[], _, rfl, .inl rfl⟩
  | char c => exact ⟨_, _, rfl, .inr (.inl rfl)⟩
  | escape a b => exact ⟨['(', '?', 'i', ':'], _, rfl, .inr (.inr (.inr ⟨a, b, rfl⟩))⟩
  | segment => exact ⟨['(', '[', '^'], _, by decide, .inr (.inr (.inl rfl))⟩

theorem not_restSource_suffix_source {i : Item} (hi : i ≠ .rest) (w : Text) :
    ¬ restSource <:+ w ++ i.source := by
  obtain ⟨u, v, h, hv⟩ := source_ends hi
  rw [h, ← List.reverse_prefix, reverse_restSource, ← List.append_assoc, List.reverse_append]
  rcases hv with rfl | rfl | rfl | ⟨a, b, rfl⟩ <;> simp

theorem restSource_suffix_flatMap_iff {w : Text} (hw : ¬ restSource <:+ w) (is : List Item) :
    restSource <:+ w ++ is.flatMap Item.source ↔ is.getLast? = some .rest := by
  rcases List.eq_nil_or_concat' is with rfl | ⟨is, i, rfl⟩
  · simpa using hw
  · rw [List.flatMap_append, List.flatMap_singleton, List.getLast?_concat, ← List.append_assoc]
    by_cases hi : i = .rest
    · subst hi
      exact ⟨fun _ => rfl, fun _ => List.suffix_append _ _⟩
    · exact ⟨fun hs => absurd hs (not_restSource_suffix_source hi _),
        fun hs => absurd (Option.some.inj hs) hi⟩

theorem closesWithStar_iff_suffix {p : Pattern} {s : Text} (h : p.source = s ++ ['$']) :
    p.closesWithStar ↔ restSource <:+ s := by
  rw [closesWithStar, List.isSuffixOf_iff_suffix, h, ← List.reverse_prefix,
    List.reverse_append, List.reverse_append]
  simp only [List.reverse_singleton, List.singleton_append, List.cons_prefix_cons, true_and]
  exact List.reverse_prefix

theorem closesWithStar_iff (p : Pattern) : p.closesWithStar ↔ p.items.getLast? = some .rest := by
  have caret : ¬ restSource <:+ ['^'] := fun hs => absurd hs.length_le (by decide)
  rw [closesWithStar_iff_suffix rfl]
  exact restSource_suffix_flatMap_iff caret p.items

theorem getLast?_ofSegment_iff (s : Segment) :
    (ofSegment s).getLast? = some .rest ↔ s.isStar = true := by
  cases s with
  | static text =>
    refine ⟨fun hl => ?_, fun hs => nomatch hs⟩
    exact nomatch captured_of_mem_literal (List.mem_of_getLast? hl) []
  | dynamic name => simp [ofSegment, Segment.isStar]
  | star name => simp [ofSegment, Segment.isStar]
  | epsilon => simp [ofSegment, Segment.isStar]

/-- Behind its slash a segment is written with a star's capture at the end only if it is a star,
whatever stands in front of the slash. -/
theorem restSource_suffix_sourceOf_iff (w : Text) (s : Segment) :
    restSource <:+ w ++ '/' :: sourceOf s ↔ s.isStar = true := by
  have slash : ¬ restSource <:+ w ++ ['/'] := not_restSource_suffix_source (i := .slash) (by simp) w
  rw [List.append_cons, sourceOf, restSource_suffix_flatMap_iff slash, getLast?_ofSegment_iff]

theorem closesWithStar_ofSegments (ss : List Segment) :
    (ofSegments ss).closesWithStar = (Segment.visible ss).getLast?.any Segment.isStar := by
  rw [Bool.eq_iff_iff, closesWithStar_iff_suffix (source_ofSegments ss)]
  rcases List.eq_nil_or_concat' (Segment.visible ss) with h | ⟨ts, s, h⟩
  · rw [h]
    exact ⟨fun hs => absurd hs.length_le (by decide), fun hs => nomatch hs⟩
  · rw [h, List.map_append, List.map_singleton, pathOf_append_singleton, List.getLast?_concat,
      ← List.cons_append]
    exact restSource_suffix_sourceOf_iff _ s

end Pattern
end Routing
