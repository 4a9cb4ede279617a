import Routing.Proofs.Batch.Pieces
import Routing.Proofs.Graph.Walk
import Routing.Proofs.Router.Registration

/-! A router after a run of registrations, against the list of batches that were accepted. The graph
keeps, for each word, the latest batch of that word, and the table keeps the latest batch of each
name. -/

namespace Routing

variable {H : Type}

/-- The batches that no later one with an equal word has replaced. -/
def standing : List (Batch H) → List (Batch H)
  | [] => []
  | b :: bs => if bs.any (·.word = b.word) then standing bs else b :: standing bs

def latestOf (w : List CharClass) (bs : List (Batch H)) : Option (Batch H) :=
  (bs.filter (·.word = w)).getLast?

def latestNamed (name : Text) (as : List (Accepted H)) : Option (Batch H) :=
  ((as.filter (·.name = some name)).getLast?).map Accepted.batch

theorem mem_of_latestOf {w : List CharClass} {bs : List (Batch H)} {b : Batch H}
    (h : latestOf w bs = some b) : b ∈ bs ∧ b.word = w := by
  simpa using List.mem_of_getLast? h

theorem latestOf_eq_none {w : List CharClass} {bs : List (Batch H)} :
    latestOf w bs = none ↔ ∀ b ∈ bs, b.word ≠ w := by
  simp [latestOf]

theorem latestOf_cons (w : List CharClass) (b : Batch H) (bs : List (Batch H)) :
    latestOf w (b :: bs) = (latestOf w bs).or (if b.word = w then some b else none) := by
  unfold latestOf
  rw [List.filter_cons]
  split_ifs with h <;> simp_all [List.getLast?_cons]

theorem latestOf_append_singleton (w : List CharClass) (bs : List (Batch H)) (b : Batch H) :
    latestOf w (bs ++ [b]) = if b.word = w then some b else latestOf w bs := by
  unfold latestOf
  rw [List.filter_append]
  split_ifs with h <;> simp [h]

theorem latestNamed_append_singleton (name : Text) (as : List (Accepted H)) (a : Accepted H) :
    latestNamed name (as ++ [a]) = if a.name = some name then some a.batch else latestNamed name as := by
  unfold latestNamed
  rw [List.filter_append]
  split_ifs with h <;> simp [h]

/-- To stand is to be the latest of its word. -/
theorem mem_standing {bs : List (Batch H)} {b : Batch H} :
    b ∈ standing bs ↔ latestOf b.word bs = some b := by
  induction bs with
  | nil => simp [standing, latestOf]
  | cons c bs ih =>
    rw [latestOf_cons, standing]
    by_cases hw : c.word = b.word
    · have hn : latestOf b.word bs = none ↔ bs.any (·.word = c.word) = false := by
        rw [latestOf_eq_none, hw]
        simp
      cases hl : latestOf b.word bs with
      | none =>
        rw [if_neg (by simp [hn.1 hl]), List.mem_cons, ih, hl]
        simp [hw, eq_comm]
      | some d =>
        have ha : bs.any (·.word = c.word) = true := by
          rw [hl] at hn
          simpa using hn
        rw [if_pos ha, ih, hl, Option.some_or]
    · have hb : b ≠ c := fun h => hw (h ▸ rfl)
      split_ifs <;> simp [ih, hb]

theorem mem_of_mem_standing {bs : List (Batch H)} {b : Batch H} (h : b ∈ standing bs) : b ∈ bs :=
  (mem_of_latestOf (mem_standing.1 h)).1

theorem exists_mem_standing {bs : List (Batch H)} {b : Batch H} (h : b ∈ bs) :
    ∃ c ∈ standing bs, c.word = b.word := by
  cases hl : latestOf b.word bs with
  | none => exact absurd rfl (latestOf_eq_none.1 hl b h)
  | some c =>
    have hw := (mem_of_latestOf hl).2
    exact ⟨c, mem_standing.2 (hw ▸ hl), hw⟩

theorem pairwise_standing (bs : List (Batch H)) :
    (standing bs).Pairwise fun b c => b.word ≠ c.word := by
  induction bs with
  | nil => exact .nil
  | cons b bs ih =>
    unfold standing
    split_ifs with h
    · exact ih
    · refine List.pairwise_cons.2 ⟨fun c hc he => h ?_, ih⟩
      exact List.any_eq_true.2 ⟨c, mem_of_mem_standing hc, by simpa using he.symm⟩

/-- The graph and the table of a router reflect the batches that were accepted. -/
structure Router.Tracks (r : Router H) (as : List (Accepted H)) : Prop where
  trie : r.graph.Trie
  leads : ∀ a ∈ as, ∃ i, r.graph.Leads a.batch.word i
  stored? : ∀ {w i}, r.graph.Leads w i →
    r.graph.stored? i = (latestOf w (as.map Accepted.batch)).map Batch.entry
  find? : ∀ name, r.named.find? name = (latestNamed name as).map Batch.namedRoute

namespace Router.Tracks

theorem new (c : Config) (n : Normalizer) : Tracks (new c n : Router H) [] where
  trie := .empty
  leads a ha := by simp at ha
  stored? {w i} hl := by
    cases i <;> simp [Router.new, Graph.stored?, Graph.empty, latestOf]
  find? name := rfl

theorem enter {r : Router H} {as : List (Accepted H)} (h : Tracks r as) (a : Accepted H) :
    Tracks (r.enter a) (as ++ [a]) where
  trie := Graph.trie_insert h.trie a.batch.proper_word
  leads b hb := by
    rcases List.mem_append.1 hb with hb | hb
    · obtain ⟨i, hi⟩ := h.leads b hb
      exact ⟨i, hi.insert h.trie a.batch.proper_word⟩
    · rw [List.mem_singleton.1 hb]
      exact Graph.leads_insert h.trie a.batch.proper_word
  stored? {w i} hl := by
    have hp := a.batch.proper_word
    rw [List.map_append, List.map_singleton, latestOf_append_singleton]
    refine (Graph.stored?_insert_of_leads h.trie hp hl).trans ?_
    by_cases hw : w = a.batch.word
    · rw [if_pos hw, if_pos hw.symm]
      rfl
    rw [if_neg hw, if_neg (Ne.symm hw)]
    by_cases hi : i < r.graph.size
    · obtain ⟨u, hu⟩ := h.trie.leads_exists hi
      rw [(Graph.trie_insert h.trie hp).leads_unique hl (hu.insert h.trie hp)]
      exact h.stored? hu
    · -- a state that is new can only be on the way to the batch just entered
      have hn : latestOf w (as.map Accepted.batch) = none := by
        rw [latestOf_eq_none]
        intro b hb he
        obtain ⟨c, hc, rfl⟩ := List.mem_map.1 hb
        obtain ⟨j, hj⟩ := h.leads c hc
        have hij := (Graph.trie_insert h.trie hp).leads_end_unique hl (he ▸ hj.insert h.trie hp)
        exact hi (hij ▸ h.trie.lt_size hj)
      rw [hn, Graph.stored?_of_size_le (Nat.le_of_not_lt hi)]
      rfl
  find? name := by
    rw [latestNamed_append_singleton]
    cases hn : a.name with
    | none => simp [Router.enter, hn, h.find?]
    | some m =>
      simp only [Router.enter, hn, Dict.find?_insert, h.find?, Option.some.injEq, eq_comm (a := name)]
      split_ifs <;> rfl

theorem run (k : Compiler) (c : Config) (n : Normalizer) (xs : List (Registration H)) :
    Tracks (run k c n xs) (accepted k n xs) := by
  rw [run_eq]
  induction accepted k n xs using List.reverseRecOn with
  | nil => exact new c n
  | append_singleton as a ih =>
    rw [List.foldl_append]
    exact ih.enter a

end Router.Tracks
end Routing
