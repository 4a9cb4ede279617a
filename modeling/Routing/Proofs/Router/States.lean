import Routing.Proofs.Graph.Prefixes
import Routing.Proofs.Router.History

/-! The states of a router's graph. Apart from loops they form a tree, with one state for each
beginning of a registered word. -/

namespace Routing

variable {H : Type}

def acceptedWords (k : Compiler) (n : Normalizer) (xs : List (Registration H)) :
    Finset (List CharClass) :=
  ((accepted k n xs).map fun a => a.batch.word).toFinset

def beginnings (ws : Finset (List CharClass)) : Finset (List CharClass) :=
  insert [] (ws.biUnion fun w => w.inits.toFinset)

theorem mem_acceptedWords {k : Compiler} {n : Normalizer} {xs : List (Registration H)}
    {w : List CharClass} : w ∈ acceptedWords k n xs ↔ ∃ x ∈ xs, x.routes ≠ [] ∧
      k.compile (Batch.parse n x.routes).pattern.source = .ok () ∧
      (Batch.parse n x.routes).word = w := by
  rw [acceptedWords, List.mem_toFinset, List.mem_map]
  constructor
  · intro h
    obtain ⟨a, ha, rfl⟩ := h
    obtain ⟨x, hx, h0, hk, rfl⟩ := mem_accepted.1 ha
    exact ⟨x, hx, h0, hk, rfl⟩
  · intro h
    obtain ⟨x, hx, h0, hk, rfl⟩ := h
    exact ⟨_, mem_accepted.2 ⟨x, hx, h0, hk, rfl⟩, rfl⟩

theorem mem_beginnings {ws : Finset (List CharClass)} {v : List CharClass} :
    v ∈ beginnings ws ↔ v = [] ∨ ∃ w ∈ ws, v <+: w := by
  simp [beginnings]

namespace Router

theorem holds_foldl_enter {r : Router H} (h : r.graph.Trie) (as : List (Accepted H))
    (v : List CharClass) :
    (as.foldl enter r).graph.Holds v ↔ r.graph.Holds v ∨ ∃ a ∈ as, v <+: a.batch.word := by
  induction as generalizing r with
  | nil => simp
  | cons a as ih =>
    have ha : (r.enter a).graph.Holds v ↔ r.graph.Holds v ∨ v <+: a.batch.word :=
      Graph.holds_insert h a.batch.proper_word
    rw [List.foldl_cons, ih (Graph.trie_insert h a.batch.proper_word), ha, or_assoc]
    simp

theorem holds_run (k : Compiler) (c : Config) (n : Normalizer) (xs : List (Registration H))
    (v : List CharClass) :
    (run k c n xs).graph.Holds v ↔ v ∈ beginnings (acceptedWords k n xs) := by
  rw [run_eq, holds_foldl_enter .empty, mem_beginnings]
  simp [acceptedWords, new, Graph.holds_empty]

theorem stateCount_run (k : Compiler) (c : Config) (n : Normalizer) (xs : List (Registration H)) :
    (run k c n xs).stateCount = (beginnings (acceptedWords k n xs)).card :=
  (Tracks.run k c n xs).trie.size_eq_card fun w => (holds_run k c n xs w).symm

/-- After any run of registrations the graph is a tree with loops: every state but the root has one
parent, which is an earlier state, the states that loop are those entered through a class that
repeats, and siblings are entered through different classes. There are as many states as beginnings
of the words of registrations that have routes and are not refused, whatever their order and however
often they were registered. -/
theorem states_run (k : Compiler) (c : Config) (n : Normalizer) (xs : List (Registration H)) :
    let g := (run k c n xs).graph
    (∀ i, ∀ j ∈ g.children i, j < g.size) ∧
      (∀ j, j ≠ Graph.root → j < g.size →
        ∃ i, i < j ∧ j ∈ g.children i ∧ ∀ i', i' ≠ j → j ∈ g.children i' → i' = i) ∧
      (∀ i, i ∈ g.children i ↔ ∃ cs, g.cls? i = some (.deny cs)) ∧
      (∀ i, (g.children i).Pairwise fun a b => g.cls? a ≠ g.cls? b) ∧
      (run k c n xs).stateCount = (beginnings (acceptedWords k n xs)).card ∧
      (∀ w, w ∈ acceptedWords k n xs ↔ ∃ x ∈ xs, x.routes ≠ [] ∧
        k.compile (Batch.parse n x.routes).pattern.source = .ok () ∧
        (Batch.parse n x.routes).word = w) ∧
      ∀ (k' : Compiler) (c' : Config) (n' : Normalizer) (ys : List (Registration H)),
        acceptedWords k' n' ys = acceptedWords k n xs →
          (run k' c' n' ys).stateCount = (run k c n xs).stateCount := by
  have h := (Tracks.run k c n xs).trie
  refine ⟨fun i j => h.child_lt, ?_, ?_, h.distinct, stateCount_run k c n xs,
    fun w => mem_acceptedWords, ?_⟩
  · intro j hj hs
    obtain ⟨i, hlt, hc⟩ := h.parent (Nat.pos_of_ne_zero hj) hs
    exact ⟨i, hlt, hc, fun i' hn hc' => h.parent_unique hc' hc hn hlt.ne⟩
  · intro i
    refine ⟨?_, ?_⟩
    · intro hi
      obtain ⟨cls, hk⟩ := Graph.exists_cls? (h.child_lt hi)
      have hr := (h.loop hk).1 hi
      cases cls with
      | allow cs => exact nomatch hr
      | deny cs => exact ⟨cs, hk⟩
    · intro hx
      obtain ⟨cs, hk⟩ := hx
      exact (h.loop hk).2 rfl
  · intro k' c' n' ys hw
    rw [stateCount_run, stateCount_run, hw]

/-- Two patterns with a common beginning, one of them registered twice. -/
example : (run .lenient {} .percent [⟨[(['a', '/', ':', 'i'], 0)], none⟩,
    ⟨[(['a', '/', 'b'], 1)], none⟩, ⟨[(['a', '/', ':', 'j'], 2)], none⟩]).stateCount = 6 := by
  decide +kernel

end Router
end Routing
