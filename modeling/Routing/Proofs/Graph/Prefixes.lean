import Routing.Proofs.Graph.Insert

/-! Which words a graph holds. Adding a word adds its beginnings and no others, and since states and
their words determine each other, the size of a graph is the number of its words. -/

namespace Routing.Graph

variable {α : Type} {g : Graph α} {i : Nat} {k : CharClass} {u v w : List CharClass} {a : α}

def Holds (g : Graph α) (w : List CharClass) : Prop := ∃ i, Leads g w i

theorem holds_ensure (h : Trie g) (hl : Leads g u i) (hp : Proper (u ++ [k])) :
    (g.ensure i k).1.Holds v ↔ g.Holds v ∨ v = u ++ [k] := by
  obtain ⟨ht, he, hnew⟩ := leads_ensure h hl hp
  refine ⟨?_, ?_⟩
  · intro hv
    obtain ⟨j, hj⟩ := hv
    by_cases hs : j < g.size
    · obtain ⟨x, hx⟩ := h.leads_exists hs
      rw [ht.leads_unique hj (hx.mono he)]
      exact .inl ⟨j, hx⟩
    · -- a state that is new is the one that the class leads to
      right
      have hj' := ht.lt_size hj
      cases hf : g.child? i k with
      | some j' =>
        rw [ensure_of_child? hf] at hj'
        exact absurd hj' hs
      | none =>
        rw [ensure_of_not_child? hf] at ht hnew hj hj'
        rw [size_grow] at hj'
        obtain rfl : j = g.size := by omega
        exact ht.leads_unique hj hnew
  · rintro (⟨j, hj⟩ | rfl)
    · exact ⟨j, hj.mono he⟩
    · exact ⟨_, hnew⟩

theorem holds_foldl_ensure (h : Trie g) (hl : Leads g u i) (hp : Proper (u ++ w)) :
    (w.foldl (fun (g, i) k => g.ensure i k) (g, i)).1.Holds v ↔
      g.Holds v ∨ ∃ x, x <+: w ∧ v = u ++ x := by
  have hu : g.Holds u := ⟨i, hl⟩
  induction w generalizing g u i with
  | nil => simp +contextual [hu]
  | cons k w ih =>
    rw [List.append_cons] at hp
    have hpk := (List.isChain_append.1 hp).1
    obtain ⟨ht, -, hnew⟩ := leads_ensure h hl hpk
    refine (ih ht hnew hp ⟨_, hnew⟩).trans ?_
    simp only [holds_ensure h hl hpk, List.prefix_cons_iff]
    refine ⟨?_, ?_⟩
    · rintro ((hv | rfl) | ⟨x, hx, rfl⟩)
      · exact .inl hv
      · exact .inr ⟨[k], .inr ⟨[], rfl, List.nil_prefix⟩, rfl⟩
      · exact .inr ⟨k :: x, .inr ⟨x, rfl, hx⟩, by simp⟩
    · rintro (hv | ⟨-, rfl | ⟨x, rfl, hx⟩, rfl⟩)
      · exact .inl (.inl hv)
      · exact .inl (.inl (by simpa using hu))
      · exact .inr ⟨x, hx, by simp⟩

theorem holds_insert (h : Trie g) (hp : Proper w) :
    (g.insert w a).Holds v ↔ g.Holds v ∨ v <+: w := by
  have hw : (g.insert w a).Holds v ↔ (g.ensureWord w).1.Holds v :=
    exists_congr fun i =>
      ⟨fun hl => hl.congr (fun _ => children_insert.symm) fun _ => cls?_insert.symm,
        fun hl => hl.congr (fun _ => children_insert) fun _ => cls?_insert⟩
  rw [hw, ensureWord, holds_foldl_ensure h .start (by simpa using hp)]
  simp

theorem holds_empty : (empty : Graph α).Holds v ↔ v = [] := by
  refine ⟨?_, ?_⟩
  · intro hv
    obtain ⟨i, hi⟩ := hv
    cases hi with
    | start => rfl
    | step _ hc => simp [Trie.children_empty] at hc
  · rintro rfl
    exact ⟨root, .start⟩

/-- Each state has one word and each word one state, so there are as many of the one as of the
other. -/
theorem Trie.size_eq_card (h : Trie g) {s : Finset (List CharClass)} (hs : ∀ w, w ∈ s ↔ g.Holds w) :
    g.size = s.card := by
  rw [← Finset.card_range g.size]
  refine Finset.card_bij (fun i hi => (h.leads_exists (Finset.mem_range.1 hi)).choose) ?_ ?_ ?_
  · intro i hi
    exact (hs _).2 ⟨i, (h.leads_exists (Finset.mem_range.1 hi)).choose_spec⟩
  · intro i hi j hj he
    have hl := (h.leads_exists (Finset.mem_range.1 hi)).choose_spec
    rw [he] at hl
    exact h.leads_end_unique hl (h.leads_exists (Finset.mem_range.1 hj)).choose_spec
  · intro w hw
    obtain ⟨i, hi⟩ := (hs w).1 hw
    have hr := Finset.mem_range.2 (h.lt_size hi)
    exact ⟨i, hr, h.leads_unique (h.leads_exists (Finset.mem_range.1 hr)).choose_spec hi⟩

end Routing.Graph
