import Routing.Proofs.Graph.Walk

/-! The order of a frontier. A word that is added puts new states between the old ones but does not
move them, so a walk finds the same entries in the same order, with the word's own entry in one place
among them if the word describes the text. -/

namespace Routing

theorem filter_eraseDups (p : Nat → Bool) (l : List Nat) :
    l.eraseDups.filter p = (l.filter p).eraseDups := by
  induction hn : l.length using Nat.strongRecOn generalizing l with
  | ind n ih =>
    cases l with
    | nil => rfl
    | cons a l =>
      subst hn
      have ih := ih _ (Nat.lt_succ_of_le (List.length_filter_le _ _)) (l.filter fun b => ! b == a) rfl
      rw [List.eraseDups_cons]
      by_cases ha : p a
      · rw [List.filter_cons_of_pos ha, List.filter_cons_of_pos ha, List.eraseDups_cons, ih,
          List.filter_filter, List.filter_filter]
        simp only [Bool.and_comm]
      · rw [List.filter_cons_of_neg ha, List.filter_cons_of_neg ha, ih, List.filter_filter]
        -- no occurrence of `a` passes, so none is left to erase
        congr 1
        apply List.filter_congr
        intro b _
        by_cases hb : b = a
        · simp [hb, ha]
        · simp [hb]

namespace Graph

variable {α : Type} {g g' : Graph α} {i j : Nat} {w : List CharClass} {a : α} {s : Text} {c : Char}

namespace Extends

theorem admits (h : Extends g g') (hi : i < g.size) : g'.admits i c = g.admits i c := by
  rw [Graph.admits, Graph.admits, h.cls? hi]

theorem filter_moves (h : Extends g g') (hi : i < g.size) :
    ((g'.children i).filter (g'.admits · c)).filter (· < g.size) =
      (g.children i).filter (g.admits · c) := by
  rw [← h.children hi, List.filter_filter, List.filter_filter]
  apply List.filter_congr
  intro j _
  by_cases hj : j < g.size
  · simp [hj, h.admits hj]
  · simp [hj]

theorem filter_moves_of_le (h : Trie g') (hi : g.size ≤ i) :
    ((g'.children i).filter (g'.admits · c)).filter (· < g.size) = [] := by
  rw [List.filter_eq_nil_iff]
  intro j hj
  have := h.le_child (List.mem_filter.1 hj).1
  simp only [decide_eq_true_eq]
  omega

theorem filter_step (h : Extends g g') (ht : Trie g') (frontier : List Nat) (c : Char) :
    (g'.step frontier c).filter (· < g.size) = g.step (frontier.filter (· < g.size)) c := by
  rw [step, step, filter_eraseDups, List.filter_flatMap]
  congr 1
  induction frontier with
  | nil => rfl
  | cons i frontier ih =>
    rw [List.flatMap_cons, ih]
    by_cases hi : i < g.size
    · rw [List.filter_cons_of_pos (by simpa using hi), List.flatMap_cons, h.filter_moves hi]
    · rw [List.filter_cons_of_neg (by simpa using hi), filter_moves_of_le ht (Nat.le_of_not_lt hi),
        List.nil_append]

/-- The old states of a frontier stand in the order in which they stood before. -/
theorem filter_reach (h : Extends g g') (hg : Trie g) (ht : Trie g') (s : Text) :
    (g'.reach s).filter (· < g.size) = g.reach s := by
  induction s using List.reverseRecOn with
  | nil =>
    have : root < g.size := hg.size_pos
    simp [reach, this]
  | append_singleton s c ih =>
    rw [reach_append_singleton, reach_append_singleton, h.filter_step ht, ih]

theorem filterMap_reach (h : Extends g g') (hg : Trie g) (ht : Trie g') (s : Text) :
    (g'.reach s).filterMap g.stored? = g.entries s := by
  rw [entries, ← h.filter_reach hg ht s, List.filterMap_filter]
  apply List.filterMap_congr
  intro i _
  split_ifs with hi
  · rfl
  · exact stored?_of_size_le (Nat.le_of_not_lt (by simpa using hi))

end Extends

theorem step_congr (hc : ∀ i, g'.children i = g.children i) (hk : ∀ i, g'.cls? i = g.cls? i)
    (frontier : List Nat) (c : Char) : g'.step frontier c = g.step frontier c := by
  simp only [step, Graph.admits, hc, hk]

theorem reach_insert : (g.insert w a).reach s = (g.ensureWord w).1.reach s := by
  rw [reach, reach]
  congr 1
  funext frontier c
  exact step_congr (fun _ => children_insert) (fun _ => cls?_insert) frontier c

theorem mem_reach_ensureWord (h : Trie g) (hp : Proper w) :
    (g.ensureWord w).2 ∈ (g.ensureWord w).1.reach s ↔ Describes w s := by
  obtain ⟨ht, -, hl⟩ := leads_ensureWord h hp
  rw [ht.mem_reach]
  constructor
  · rintro ⟨u, hu, hd⟩
    rwa [ht.leads_unique hl hu]
  · intro hd
    exact ⟨w, hl, hd⟩

theorem stored?_insert_eq (h : Trie g) (hp : Proper w) (i : Nat) :
    (g.insert w a).stored? i = if (g.ensureWord w).2 = i then some a else g.stored? i := by
  obtain ⟨ht, he, hl⟩ := leads_ensureWord h hp
  rw [stored?_insert (ht.lt_size hl), he.stored?]

/-- A word that does not describe a text leaves what is found for it alone. -/
theorem entries_insert_of_not_describes (h : Trie g) (hp : Proper w) (hd : ¬ Describes w s) :
    (g.insert w a).entries s = g.entries s := by
  obtain ⟨ht, he, -⟩ := leads_ensureWord h hp
  rw [entries, reach_insert, ← he.filterMap_reach h ht]
  apply List.filterMap_congr
  intro i hi
  rw [stored?_insert_eq h hp, if_neg]
  rintro rfl
  exact hd ((mem_reach_ensureWord h hp).1 hi)

/-- A word that describes a text puts its entry in one place, where at most its older one was. -/
theorem entries_insert_of_describes (h : Trie g) (hp : Proper w) (hd : Describes w s) :
    ∃ l m old, g.entries s = l ++ Option.toList old ++ m ∧ (g.insert w a).entries s = l ++ a :: m ∧
      ∀ e ∈ old, ∃ i, Leads g w i ∧ g.stored? i = some e := by
  obtain ⟨ht, he, hl⟩ := leads_ensureWord h hp
  obtain ⟨p, q, hpq⟩ := List.append_of_mem ((mem_reach_ensureWord h hp).2 hd)
  have hn := nodup_reach (g.ensureWord w).1 s
  rw [hpq, List.nodup_append, List.nodup_cons] at hn
  obtain ⟨-, ⟨hq, -⟩, hpj⟩ := hn
  have hother : ∀ i, (g.ensureWord w).2 ≠ i → (g.insert w a).stored? i = g.stored? i := by
    intro i hi
    rw [stored?_insert_eq h hp, if_neg hi]
  refine ⟨p.filterMap g.stored?, q.filterMap g.stored?, g.stored? (g.ensureWord w).2, ?_, ?_, ?_⟩
  · rw [← he.filterMap_reach h ht, hpq, List.filterMap_append, List.append_assoc]
    congr 1
    cases hs : g.stored? (g.ensureWord w).2 <;> simp [hs]
  · have hw : (g.insert w a).stored? (g.ensureWord w).2 = some a := by
      rw [stored?_insert_eq h hp, if_pos rfl]
    rw [entries, reach_insert, hpq, List.filterMap_append, List.filterMap_cons_some hw]
    congr 1
    · apply List.filterMap_congr
      intro i hi
      exact hother i fun hij => hpj i hi _ (by simp) hij.symm
    · congr 1
      apply List.filterMap_congr
      intro i hi
      apply hother i
      rintro rfl
      exact hq hi
  · intro e hs
    refine ⟨_, ?_, hs⟩
    -- the state is an old one, for it stores an entry already
    have hi : (g.ensureWord w).2 < g.size := by
      by_contra hi
      rw [Option.mem_def, stored?_of_size_le (Nat.le_of_not_lt hi)] at hs
      exact nomatch hs
    obtain ⟨u, hu⟩ := h.leads_exists hi
    obtain rfl := ht.leads_unique hl (hu.mono he)
    exact hu

end Graph
end Routing
