import Routing.Proofs.Graph.Words

/-! The graph is a trie of words. Apart from loops each state has one parent, with a smaller
position, and one word that leads to it. A walk ends in exactly the states whose word describes
the text. -/

namespace Routing.Graph

variable {α : Type} {g g' : Graph α} {i i' j : Nat} {k : CharClass} {u w : List CharClass}

/-- The words that lead from the root to a state. A loop adds nothing to a word. -/
inductive Leads (g : Graph α) : List CharClass → Nat → Prop where
  | start : Leads g [] root
  | step {w : List CharClass} {i j : Nat} {k : CharClass} : Leads g w i → j ∈ g.children i →
      j ≠ i → g.cls? j = some k → Leads g (w ++ [k]) j

structure Trie (g : Graph α) : Prop where
  cls_root : g.cls? root = some (.allow [])
  child_lt : ∀ {i j}, j ∈ g.children i → j < g.size
  le_child : ∀ {i j}, j ∈ g.children i → i ≤ j
  parent : ∀ {j}, 0 < j → j < g.size → ∃ i, i < j ∧ j ∈ g.children i
  parent_unique : ∀ {i i' j}, j ∈ g.children i → j ∈ g.children i' → i ≠ j → i' ≠ j → i = i'
  loop : ∀ {i k}, g.cls? i = some k → (i ∈ g.children i ↔ k.repeats)
  distinct : ∀ i, (g.children i).Pairwise fun a b => g.cls? a ≠ g.cls? b

/-- All that a graph holds is found in a later one at the same place. -/
structure Extends (g g' : Graph α) : Prop where
  size_le : g.size ≤ g'.size
  cls? : ∀ {i}, i < g.size → g'.cls? i = g.cls? i
  children : ∀ {i}, i < g.size → (g'.children i).filter (· < g.size) = g.children i
  stored? : ∀ i, g'.stored? i = g.stored? i

theorem lt_size_of_cls? (h : g.cls? i = some k) : i < g.size := by
  by_contra hi
  simp [cls?, Array.getElem?_eq_none (show g.states.size ≤ i from by simpa [size] using hi)] at h

theorem exists_cls? (h : i < g.size) : ∃ k, g.cls? i = some k := by
  have hi : i < g.states.size := h
  exact ⟨g.states[i].cls, by rw [cls?, Array.getElem?_eq_getElem hi]; rfl⟩

theorem lt_size_of_mem_children (h : j ∈ g.children i) : i < g.size := by
  by_contra hi
  simp [children, Array.getElem?_eq_none (show g.states.size ≤ i by simpa [size] using hi)] at h

theorem stored?_of_size_le (h : g.size ≤ i) : g.stored? i = none := by
  rw [stored?, Array.getElem?_eq_none h]
  rfl

namespace Leads

theorem append_singleton (h : Leads g (w ++ [k]) j) :
    ∃ i, Leads g w i ∧ j ∈ g.children i ∧ j ≠ i ∧ g.cls? j = some k := by
  generalize hu : w ++ [k] = u at h
  cases h with
  | start => simp at hu
  | step hl hc hn hk =>
    obtain ⟨rfl, rfl⟩ : w = _ ∧ k = _ := by simpa using List.append_inj' hu rfl
    exact ⟨_, hl, hc, hn, hk⟩

theorem nil_iff : Leads g [] i ↔ i = root := by
  constructor
  · intro h
    generalize hu : ([] : List CharClass) = u at h
    cases h with
    | start => rfl
    | step => simp at hu
  · rintro rfl
    exact .start

theorem mono (h : Extends g g') (hl : Leads g w i) : Leads g' w i := by
  induction hl with
  | start => exact .start
  | @step w i j k hl hc hn hk ih =>
    have hi := lt_size_of_mem_children hc
    rw [← h.children hi] at hc
    exact ih.step (List.mem_filter.1 hc).1 hn ((h.cls? (lt_size_of_cls? hk)).trans hk)

end Leads

namespace Trie

theorem size_pos (h : Trie g) : 0 < g.size := lt_size_of_cls? h.cls_root

theorem lt_size (h : Trie g) (hl : Leads g w i) : i < g.size := by
  cases hl with
  | start => exact h.size_pos
  | step _ hc => exact h.child_lt hc

theorem ne_root (h : Trie g) (hc : j ∈ g.children i) (hn : j ≠ i) : j ≠ root := by
  have := h.le_child hc
  rintro rfl
  exact hn (by simp only [root] at *; omega)

theorem leads_exists (h : Trie g) (hi : i < g.size) : ∃ w, Leads g w i := by
  induction i using Nat.strongRecOn with
  | ind i ih =>
    rcases Nat.eq_zero_or_pos i with rfl | hp
    · exact ⟨[], .start⟩
    · obtain ⟨p, hlt, hc⟩ := h.parent hp hi
      obtain ⟨w, hw⟩ := ih p hlt (by omega)
      obtain ⟨k, hk⟩ := exists_cls? hi
      exact ⟨w ++ [k], hw.step hc (by omega) hk⟩

theorem leads_unique (h : Trie g) (hu : Leads g u i) (hw : Leads g w i) : u = w := by
  induction hu generalizing w with
  | start =>
    cases hw with
    | start => rfl
    | step _ hc hn => exact absurd rfl (h.ne_root hc hn)
  | step hl hc hn hk ih =>
    cases hw with
    | start => exact absurd rfl (h.ne_root hc hn)
    | step hl' hc' hn' hk' =>
      obtain rfl := h.parent_unique hc hc' hn.symm hn'.symm
      rw [ih hl', Option.some.inj (hk.symm.trans hk')]

theorem child_unique (h : Trie g) {a b : Nat} (ha : a ∈ g.children i) (hb : b ∈ g.children i)
    (hab : g.cls? a = g.cls? b) : a = b := by
  by_contra hne
  have symm : Std.Symm fun a b => g.cls? a ≠ g.cls? b := ⟨fun _ _ => Ne.symm⟩
  exact (h.distinct i).forall ha hb hne hab

theorem leads_end_unique (h : Trie g) (hi : Leads g w i) (hj : Leads g w j) : i = j := by
  induction hi generalizing j with
  | start => exact (Leads.nil_iff.1 hj).symm
  | step hl hc hn hk ih =>
    obtain ⟨p, hp, hc', hn', hk'⟩ := hj.append_singleton
    obtain rfl := ih hp
    exact h.child_unique hc hc' (hk.trans hk'.symm)

theorem congr (h : Trie g) (hs : g'.size = g.size) (hc : ∀ i, g'.children i = g.children i)
    (hk : ∀ i, g'.cls? i = g.cls? i) : Trie g' where
  cls_root := by rw [hk, h.cls_root]
  child_lt hj := by rw [hs]; rw [hc] at hj; exact h.child_lt hj
  le_child hj := by rw [hc] at hj; exact h.le_child hj
  parent hp hj := by
    rw [hs] at hj
    simpa only [hc] using h.parent hp hj
  parent_unique hi hi' := by rw [hc] at hi hi'; exact h.parent_unique hi hi'
  loop hi := by rw [hc]; rw [hk] at hi; exact h.loop hi
  distinct i := by simpa only [hc, hk] using h.distinct i

theorem children_empty (i : Nat) : (Graph.empty : Graph α).children i = [] := by
  cases i <;> simp [children, Graph.empty]

theorem empty : Trie (Graph.empty : Graph α) where
  cls_root := rfl
  child_lt hj := by simp [children_empty] at hj
  le_child hj := by simp [children_empty] at hj
  parent hp hj := by simp [Graph.empty, size] at hj; omega
  parent_unique hj := by simp [children_empty] at hj
  loop {i k} hk := by
    obtain rfl : i = 0 := by simpa [Graph.empty, size] using lt_size_of_cls? hk
    obtain rfl : .allow [] = k := by simpa [Graph.empty, cls?] using hk
    simp [children_empty, CharClass.repeats]
  distinct i := by simp [children_empty]

theorem mem_children_grow (hi : i < g.size) {a : Nat} : j ∈ (g.grow i k).children a ↔
    j ∈ g.children a ∨ j = g.size ∧ (a = i ∨ a = g.size ∧ k.repeats) := by
  rw [children_grow g hi]
  by_cases hs : a = g.size
  · subst hs
    have hn : j ∉ g.children g.size := fun hj => (lt_size_of_mem_children hj).ne rfl
    rw [if_pos rfl]
    cases k.repeats <;> simp [hn, hi.ne']
  · rw [if_neg hs]
    split_ifs with ha
    · subst ha
      simp
    · simp [hs, ha]

theorem grow (h : Trie g) (hi : i < g.size) (hk : g.child? i k = none) : Trie (g.grow i k) where
  cls_root := by
    rw [cls?_grow, if_neg (show root ≠ g.size from h.size_pos.ne), h.cls_root]
  child_lt {a j} hj := by
    rw [size_grow]
    rcases (mem_children_grow hi).1 hj with hj | ⟨rfl, -⟩
    · exact (h.child_lt hj).trans (Nat.lt_succ_self _)
    · exact Nat.lt_succ_self _
  le_child {a j} hj := by
    rcases (mem_children_grow hi).1 hj with hj | ⟨rfl, rfl | ⟨rfl, -⟩⟩
    · exact h.le_child hj
    · exact hi.le
    · exact Nat.le_refl _
  parent {j} hp hj := by
    rw [size_grow] at hj
    rcases Nat.lt_succ_iff_lt_or_eq.1 hj with hj | rfl
    · obtain ⟨p, hlt, hc⟩ := h.parent hp hj
      exact ⟨p, hlt, (mem_children_grow hi).2 (.inl hc)⟩
    · exact ⟨i, hi, (mem_children_grow hi).2 (.inr ⟨rfl, .inl rfl⟩)⟩
  parent_unique {a b j} ha hb hna hnb := by
    rcases (mem_children_grow hi).1 ha with ha | ⟨rfl, rfl | ⟨rfl, -⟩⟩
    · rcases (mem_children_grow hi).1 hb with hb | ⟨rfl, -⟩
      · exact h.parent_unique ha hb hna hnb
      · exact absurd (h.child_lt ha) (Nat.lt_irrefl _)
    · rcases (mem_children_grow hi).1 hb with hb | ⟨-, rfl | ⟨rfl, -⟩⟩
      · exact absurd (h.child_lt hb) (Nat.lt_irrefl _)
      · rfl
      · exact absurd rfl hnb
    · exact absurd rfl hna
  loop {a c} hc := by
    rw [mem_children_grow hi]
    rw [cls?_grow] at hc
    split_ifs at hc with ha
    · subst ha
      obtain rfl := Option.some.inj hc
      have hn : g.size ∉ g.children g.size := fun hj => (lt_size_of_mem_children hj).ne rfl
      simp [hn, hi.ne']
    · rw [← h.loop hc]
      simp [ha]
  distinct a := by
    have hold : ∀ b ∈ g.children a, (g.grow i k).cls? b = g.cls? b := by
      intro b hb
      rw [cls?_grow, if_neg (h.child_lt hb).ne]
    have hd : (g.children a).Pairwise fun b c => (g.grow i k).cls? b ≠ (g.grow i k).cls? c :=
      (h.distinct a).imp_of_mem fun hb hc hne => by rwa [hold _ hb, hold _ hc]
    rw [children_grow g hi]
    split_ifs with hs hr ha
    · exact List.pairwise_singleton _ _
    · exact .nil
    · -- by `hk` no child has the class of the one that is appended
      subst ha
      refine List.pairwise_append.2 ⟨hd, List.pairwise_singleton _ _, ?_⟩
      intro b hb c hc
      obtain rfl := List.mem_singleton.1 hc
      rw [hold b hb, cls?_grow, if_pos rfl]
      intro he
      simpa [he] using List.find?_eq_none.1 hk b hb
    · exact hd

end Trie
end Routing.Graph
