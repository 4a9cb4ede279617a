import Routing.Proofs.Graph.Trie

/-! Adding a word keeps the trie and everything in it. The word leads to the position that is found,
and its entry is the only one that changes. -/

namespace Routing.Graph

variable {α : Type} {g g' : Graph α} {i j : Nat} {k : CharClass} {u w : List CharClass} {a : α}

theorem Extends.refl (h : Trie g) : Extends g g where
  size_le := Nat.le_refl _
  cls? _ := rfl
  children {i} _ := List.filter_eq_self.2 fun _ hj => by simpa using h.child_lt hj
  stored? _ := rfl

theorem Extends.trans {g₁ g₂ g₃ : Graph α} (h : Extends g₁ g₂) (h' : Extends g₂ g₃) :
    Extends g₁ g₃ where
  size_le := h.size_le.trans h'.size_le
  cls? hi := (h'.cls? (hi.trans_le h.size_le)).trans (h.cls? hi)
  children {i} hi := by
    rw [← h.children hi, ← h'.children (hi.trans_le h.size_le), List.filter_filter]
    apply List.filter_congr
    intro j _
    by_cases hj : j < g₁.size
    · simp [hj, hj.trans_le h.size_le]
    · simp [hj]
  stored? i := (h'.stored? i).trans (h.stored? i)

theorem extends_grow (h : Trie g) (hi : i < g.size) : Extends g (g.grow i k) where
  size_le := by simp
  cls? {j} hj := by rw [cls?_grow, if_neg hj.ne]
  children {j} hj := by
    have hs : (g.children j).filter (· < g.size) = g.children j :=
      (Extends.refl h).children hj
    rw [children_grow g hi, if_neg hj.ne]
    split_ifs with he
    · subst he
      simp [hs]
    · exact hs
  stored? j := stored?_grow g i k j

theorem mem_of_child? (h : g.child? i k = some j) : j ∈ g.children i ∧ g.cls? j = some k :=
  ⟨List.mem_of_find?_eq_some h, by simpa using List.find?_some h⟩

theorem ensure_of_child? (h : g.child? i k = some j) : g.ensure i k = (g, j) := by
  rw [ensure, h]

theorem ensure_of_not_child? (h : g.child? i k = none) : g.ensure i k = (g.grow i k, g.size) := by
  rw [ensure, h]

theorem Leads.cls? (h : Leads g (w ++ [k]) i) : g.cls? i = some k := by
  obtain ⟨-, -, -, -, hk⟩ := h.append_singleton
  exact hk

theorem leads_ensure (h : Trie g) (hl : Leads g w i) (hp : Proper (w ++ [k])) :
    Trie (g.ensure i k).1 ∧ Extends g (g.ensure i k).1 ∧
      Leads (g.ensure i k).1 (w ++ [k]) (g.ensure i k).2 := by
  have hi := h.lt_size hl
  cases hf : g.child? i k with
  | some j =>
    obtain ⟨hc, hk⟩ := mem_of_child? hf
    rw [ensure_of_child? hf]
    refine ⟨h, .refl h, hl.step hc ?_ hk⟩
    -- the child is not the state itself: its class would come twice in a row
    rintro rfl
    have hr : k.repeats := (h.loop hk).1 hc
    rcases List.eq_nil_or_concat' w with rfl | ⟨v, k', rfl⟩
    · obtain rfl := Leads.nil_iff.1 hl
      obtain rfl := Option.some.inj (hk.symm.trans h.cls_root)
      exact absurd hr (by decide)
    · obtain rfl := Option.some.inj (hk.symm.trans hl.cls?)
      simp only [Proper, List.append_assoc, List.isChain_append] at hp
      simp [hr] at hp
  | none =>
    have hg := extends_grow (k := k) h hi
    rw [ensure_of_not_child? hf]
    refine ⟨h.grow hi hf, hg, (hl.mono hg).step ?_ hi.ne' ?_⟩
    · rw [children_grow g hi, if_neg hi.ne, if_pos rfl]
      simp
    · rw [cls?_grow, if_pos rfl]

theorem leads_foldl_ensure (h : Trie g) (hl : Leads g u i) (hp : Proper (u ++ w)) :
    let r := w.foldl (fun (g, i) k => g.ensure i k) (g, i)
    Trie r.1 ∧ Extends g r.1 ∧ Leads r.1 (u ++ w) r.2 := by
  induction w generalizing g u i with
  | nil => exact ⟨h, .refl h, by simpa using hl⟩
  | cons k w ih =>
    rw [List.append_cons] at hp
    obtain ⟨ht, he, hl'⟩ := leads_ensure h hl (List.isChain_append.1 hp).1
    obtain ⟨ht', he', hl''⟩ := ih ht hl' hp
    exact ⟨ht', he.trans he', by simpa using hl''⟩

theorem leads_ensureWord (h : Trie g) (hp : Proper w) :
    Trie (g.ensureWord w).1 ∧ Extends g (g.ensureWord w).1 ∧
      Leads (g.ensureWord w).1 w (g.ensureWord w).2 :=
  leads_foldl_ensure h .start hp

theorem size_insert : (g.insert w a).size = (g.ensureWord w).1.size := by
  simp [insert, size]

theorem getElem?_insert : (g.insert w a).states[j]? = ((g.ensureWord w).1.states[j]?).map fun s =>
    if (g.ensureWord w).2 = j then { s with entry := some a } else s := by
  rw [insert, Array.getElem?_modify]
  split_ifs with h <;> simp

theorem children_insert : (g.insert w a).children j = (g.ensureWord w).1.children j := by
  rw [children, children, getElem?_insert, Option.map_map]
  congr 2
  funext s
  simp only [Function.comp_apply]
  split_ifs <;> rfl

theorem cls?_insert : (g.insert w a).cls? j = (g.ensureWord w).1.cls? j := by
  rw [cls?, cls?, getElem?_insert, Option.map_map]
  congr 1
  funext s
  simp only [Function.comp_apply]
  split_ifs <;> rfl

theorem stored?_insert (hi : (g.ensureWord w).2 < (g.ensureWord w).1.size) :
    (g.insert w a).stored? j =
      if (g.ensureWord w).2 = j then some a else (g.ensureWord w).1.stored? j := by
  rw [stored?, stored?, getElem?_insert]
  split_ifs with h
  · subst h
    rw [Array.getElem?_eq_getElem (show _ < (g.ensureWord w).1.states.size from hi)]
    rfl
  · simp

theorem Leads.congr (hl : Leads g w i) (hc : ∀ i, g'.children i = g.children i)
    (hk : ∀ i, g'.cls? i = g.cls? i) : Leads g' w i := by
  induction hl with
  | start => exact .start
  | step _ hj hn hk' ih => exact ih.step (by rwa [hc]) hn (by rwa [hk])

theorem trie_insert (h : Trie g) (hp : Proper w) : Trie (g.insert w a) :=
  (leads_ensureWord h hp).1.congr size_insert (fun _ => children_insert) fun _ => cls?_insert

theorem Leads.insert (h : Trie g) (hp : Proper w) (hl : Leads g u i) :
    Leads (g.insert w a) u i :=
  (hl.mono (leads_ensureWord h hp).2.1).congr (fun _ => children_insert) fun _ => cls?_insert

theorem leads_insert (h : Trie g) (hp : Proper w) : ∃ i, Leads (g.insert w a) w i :=
  ⟨_, (leads_ensureWord h hp).2.2.congr (fun _ => children_insert) fun _ => cls?_insert⟩

/-- The entry at the end of the word is new, all others are as before. -/
theorem stored?_insert_of_leads (h : Trie g) (hp : Proper w) (hl : Leads (g.insert w a) u j) :
    (g.insert w a).stored? j = if u = w then some a else g.stored? j := by
  obtain ⟨ht, he, hw⟩ := leads_ensureWord h hp
  have hw' : Leads (g.insert w a) w (g.ensureWord w).2 :=
    hw.congr (fun _ => children_insert) fun _ => cls?_insert
  rw [stored?_insert (ht.lt_size hw), he.stored?]
  have ht' : Trie (g.insert w a) := trie_insert h hp
  by_cases hu : u = w
  · subst hu
    rw [if_pos (ht'.leads_end_unique hw' hl), if_pos rfl]
  · rw [if_neg hu, if_neg]
    rintro rfl
    exact hu (ht'.leads_unique hl hw')

end Routing.Graph
