import Routing.Proofs.Router.History
import Routing.Proofs.Selection

/-! Which entries a walk finds. They are those of the batches in force whose word describes the
text, each once, and the entry that wins is one of the most specific of them. -/

namespace Routing

variable {H : Type}

def inForce (k : Compiler) (n : Normalizer) (xs : List (Registration H)) : List (Batch H) :=
  standing ((accepted k n xs).map Accepted.batch)

/-- The batches in force whose word describes a text. -/
def candidates (k : Compiler) (n : Normalizer) (xs : List (Registration H)) (s : Text) :
    List (Batch H) :=
  (inForce k n xs).filter fun b => Describes b.word s

theorem mem_candidates {k : Compiler} {n : Normalizer} {xs : List (Registration H)} {s : Text}
    {b : Batch H} :
    b ∈ candidates k n xs s ↔ b ∈ inForce k n xs ∧ Describes b.word s := by
  simp [candidates]

theorem exists_mem_candidates {k : Compiler} {n : Normalizer} {xs : List (Registration H)} {s : Text} :
    (∃ b, b ∈ candidates k n xs s) ↔ ∃ a ∈ accepted k n xs, Describes a.batch.word s := by
  refine ⟨?_, ?_⟩
  · intro h
    obtain ⟨b, hb⟩ := h
    obtain ⟨hs, hd⟩ := mem_candidates.1 hb
    obtain ⟨a, ha, rfl⟩ := List.mem_map.1 (mem_of_mem_standing hs)
    exact ⟨a, ha, hd⟩
  · intro h
    obtain ⟨a, ha, hd⟩ := h
    obtain ⟨b, hb, hw⟩ := exists_mem_standing (List.mem_map_of_mem (f := Accepted.batch) ha)
    exact ⟨b, mem_candidates.2 ⟨hb, hw ▸ hd⟩⟩

namespace Router

/-- The position at the end of a word that the graph holds. -/
def position (r : Router H) (w : List CharClass) : Nat := (r.graph.ensureWord w).2

namespace Tracks

variable {r : Router H} {as : List (Accepted H)}

theorem leads_position (h : Tracks r as) {b : Batch H} (hb : b ∈ as.map Accepted.batch) :
    r.graph.Leads b.word (r.position b.word) := by
  obtain ⟨a, ha, rfl⟩ := List.mem_map.1 hb
  obtain ⟨i, hi⟩ := h.leads a ha
  obtain ⟨ht, he, hl⟩ := Graph.leads_ensureWord h.trie a.batch.proper_word
  rwa [position, ← ht.leads_end_unique (hi.mono he) hl]

theorem stored?_position (h : Tracks r as) {b : Batch H}
    (hb : b ∈ standing (as.map Accepted.batch)) :
    r.graph.stored? (r.position b.word) = some b.entry := by
  rw [h.stored? (h.leads_position (mem_of_mem_standing hb)), mem_standing.1 hb]
  rfl

theorem exists_of_stored? (h : Tracks r as) {i : Nat} {e : Entry H}
    (hs : r.graph.stored? i = some e) :
    ∃ b ∈ standing (as.map Accepted.batch), r.graph.Leads b.word i ∧ e = b.entry := by
  have hi : i < r.graph.size := by
    by_contra hi
    rw [Graph.stored?_of_size_le (Nat.le_of_not_lt hi)] at hs
    exact nomatch hs
  obtain ⟨w, hw⟩ := h.trie.leads_exists hi
  rw [h.stored? hw, Option.map_eq_some_iff] at hs
  obtain ⟨b, hb, rfl⟩ := hs
  obtain ⟨-, rfl⟩ := mem_of_latestOf hb
  exact ⟨b, mem_standing.2 hb, hw, rfl⟩

/-- The accepting states of a walk are the positions of the standing batches it spells. -/
theorem perm_positions (h : Tracks r as) (s : Text) :
    ((r.graph.reach s).filter fun i => (r.graph.stored? i).isSome).Perm
      (((standing (as.map Accepted.batch)).filter fun b => Describes b.word s).map
        fun b => r.position b.word) := by
  refine (List.perm_ext_iff_of_nodup ((Graph.nodup_reach _ _).filter _) ?_).2 ?_
  · refine List.pairwise_map.2 (((pairwise_standing _).filter _).imp_of_mem ?_)
    intro b c hb hc hne he
    have hb := h.leads_position (mem_of_mem_standing (List.mem_filter.1 hb).1)
    have hc := h.leads_position (mem_of_mem_standing (List.mem_filter.1 hc).1)
    exact hne (h.trie.leads_unique hb (he ▸ hc))
  · intro i
    simp only [List.mem_filter, List.mem_map, decide_eq_true_eq, h.trie.mem_reach]
    refine ⟨?_, ?_⟩
    · intro hx
      obtain ⟨⟨w, hl, hd⟩, hs⟩ := hx
      rw [h.stored? hl, Option.isSome_map] at hs
      obtain ⟨b, hb⟩ := Option.isSome_iff_exists.1 hs
      obtain ⟨hm, rfl⟩ := mem_of_latestOf hb
      exact ⟨b, ⟨mem_standing.2 hb, hd⟩, h.trie.leads_end_unique (h.leads_position hm) hl⟩
    · intro hx
      obtain ⟨b, ⟨hb, hd⟩, rfl⟩ := hx
      exact ⟨⟨_, h.leads_position (mem_of_mem_standing hb), hd⟩, by rw [h.stored?_position hb]; rfl⟩

theorem entries_perm (h : Tracks r as) (s : Text) :
    (r.graph.entries s).Perm
      (((standing (as.map Accepted.batch)).filter fun b => Describes b.word s).map Batch.entry) := by
  have hl : r.graph.entries s =
      ((r.graph.reach s).filter fun i => (r.graph.stored? i).isSome).filterMap r.graph.stored? := by
    rw [Graph.entries, List.filterMap_filter]
    apply List.filterMap_congr
    intro i _
    cases r.graph.stored? i <;> rfl
  rw [hl]
  refine ((h.perm_positions s).filterMap _).trans (.of_eq ?_)
  rw [List.filterMap_map, ← congrFun (List.filterMap_eq_map (f := Batch.entry)) _]
  apply List.filterMap_congr
  intro b hb
  exact h.stored?_position (List.mem_filter.1 hb).1

end Tracks

variable (k : Compiler) (c : Config) (n : Normalizer) (xs : List (Registration H)) (s : Text)

theorem mem_entries_run {e : Entry H} :
    e ∈ (run k c n xs).graph.entries s ↔ ∃ b ∈ candidates k n xs s, b.entry = e :=
  ((Tracks.run k c n xs).entries_perm s).mem_iff.trans List.mem_map

theorem isSome_select : ((run k c n xs).select s).isSome ↔ ∃ b, b ∈ candidates k n xs s := by
  rw [select, Entry.isSome_best?]
  simp [mem_entries_run]

theorem of_select {e : Entry H} (h : (run k c n xs).select s = some e) :
    (∃ b ∈ candidates k n xs s, b.entry = e) ∧
      ∀ b ∈ candidates k n xs s, compare e.specificity b.specificity ≠ .lt := by
  obtain ⟨hm, hle⟩ := Entry.mem_of_best? h
  exact ⟨(mem_entries_run k c n xs s).1 hm,
    fun b hb => hle b.entry ((mem_entries_run k c n xs s).2 ⟨b, hb, rfl⟩)⟩

theorem select_of_lt {b : Batch H} (hb : b ∈ candidates k n xs s)
    (h : ∀ b' ∈ candidates k n xs s, b' ≠ b → compare b'.specificity b.specificity = .lt) :
    (run k c n xs).select s = some b.entry := by
  obtain ⟨e, he⟩ := Option.isSome_iff_exists.1 ((isSome_select k c n xs s).2 ⟨b, hb⟩)
  obtain ⟨⟨b', hb', rfl⟩, hle⟩ := of_select k c n xs s he
  by_cases hbb : b' = b
  · rw [he, hbb]
  · exact absurd (h b' hb' hbb) (hle b hb)

/-- After any run, refused and empty batches included, a walk finds the entries of the candidates
and no others, each once, and chooses one that no candidate exceeds. The batches that were accepted
are those with routes for which the notation of the pattern is not refused. -/
theorem walk_finds_candidates :
    ((run k c n xs).graph.entries s).Perm ((candidates k n xs s).map Batch.entry) ∧
      (((run k c n xs).select s).isSome ↔ candidates k n xs s ≠ []) ∧
      (∀ e, (run k c n xs).select s = some e →
        ((∃ b ∈ candidates k n xs s, b.entry = e) ∧
          ∀ b ∈ candidates k n xs s, compare e.specificity b.specificity ≠ .lt)) ∧
      ∀ a, a ∈ accepted k n xs ↔ ∃ x ∈ xs, x.routes ≠ [] ∧
        k.compile (Batch.parse n x.routes).pattern.source = .ok () ∧
        ⟨Batch.parse n x.routes, x.name⟩ = a := by
  refine ⟨(Tracks.run k c n xs).entries_perm s, ?_, fun e he => of_select k c n xs s he,
    fun a => mem_accepted⟩
  rw [isSome_select, Ne, List.eq_nil_iff_forall_not_mem]
  push Not
  rfl

end Router
end Routing
