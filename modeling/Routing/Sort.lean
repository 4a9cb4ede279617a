/-! Stable sorting by insertion: elements that the order does not tell apart keep their places. -/

namespace Routing

variable {α : Type}

def place (le : α → α → Bool) (a : α) : List α → List α
  | [] => [a]
  | b :: r => if le a b then a :: b :: r else b :: place le a r

def sortStable (le : α → α → Bool) (l : List α) : List α := l.foldr (place le) []

theorem place_perm (le : α → α → Bool) (a : α) (l : List α) : (place le a l).Perm (a :: l) := by
  induction l with
  | nil => exact .refl _
  | cons b r ih =>
    unfold place
    split
    · exact .refl _
    · exact (ih.cons b).trans (.swap a b r)

theorem sortStable_perm (le : α → α → Bool) (l : List α) : (sortStable le l).Perm l := by
  induction l with
  | nil => exact .refl _
  | cons a r ih => exact (place_perm le a _).trans (ih.cons a)

theorem place_pairwise {le : α → α → Bool} (total : ∀ a b, le a b ∨ le b a)
    (trans : ∀ a b c, le a b → le b c → le a c) (a : α) {l : List α}
    (h : l.Pairwise (le · ·)) : (place le a l).Pairwise (le · ·) := by
  induction l with
  | nil => exact List.pairwise_singleton ..
  | cons b r ih =>
    obtain ⟨hb, hr⟩ := List.pairwise_cons.1 h
    unfold place
    split
    · next hab =>
      refine List.pairwise_cons.2 ⟨fun c hc => ?_, h⟩
      rcases List.mem_cons.1 hc with rfl | hc
      · exact hab
      · exact trans a b c hab (hb c hc)
    · next hab =>
      refine List.pairwise_cons.2 ⟨fun c hc => ?_, ih hr⟩
      rcases List.mem_cons.1 ((place_perm le a r).mem_iff.1 hc) with rfl | hc
      · exact (total b c).resolve_right hab
      · exact hb c hc

theorem sortStable_pairwise {le : α → α → Bool} (total : ∀ a b, le a b ∨ le b a)
    (trans : ∀ a b c, le a b → le b c → le a c) (l : List α) :
    (sortStable le l).Pairwise (le · ·) := by
  induction l with
  | nil => exact .nil
  | cons a r ih => exact place_pairwise total trans a ih

theorem sortStable_of_pairwise {le : α → α → Bool} {l : List α} (h : l.Pairwise (le · ·)) :
    sortStable le l = l := by
  induction l with
  | nil => rfl
  | cons a r ih =>
    obtain ⟨ha, hr⟩ := List.pairwise_cons.1 h
    rw [sortStable, List.foldr_cons, ← sortStable, ih hr]
    cases r with
    | nil => rfl
    | cons b r => simp [place, ha b (List.mem_cons_self ..)]

end Routing
