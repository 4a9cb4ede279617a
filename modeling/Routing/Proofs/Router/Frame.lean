import Routing.Proofs.Graph.Order
import Routing.Proofs.Router.Forms

/-! What a registration leaves as it was. Paths that the new batch does not describe resolve as before.
Where it does describe the path, its entry joins those that were found before without moving them,
so the choice falls on it or stays. Other names are not touched. -/

namespace Routing

variable {H : Type}

namespace Entry

/-- How the choice `old` may change into `new` when `b` joins the entries that it was made from, in
the place of an entry of the same word if there is one. -/
structure Joins (b : Entry H) (old new : Option (Entry H)) : Prop where
  of_none : old = none → new = some b
  new_or_old : ∀ e ∈ old, e.pattern.word ≠ b.pattern.word → new = some b ∨ new = some e
  new_of_lt : ∀ e ∈ old, compare e.specificity b.specificity = .lt → new = some b
  old_of_lt : ∀ e ∈ old, e.pattern.word ≠ b.pattern.word →
    compare b.specificity e.specificity = .lt → new = some e

/-- An entry that was chosen is exceeded by no other one, so only the one put in can supersede it. -/
theorem better_join {x y z : Option (Entry H)} {b e : Entry H} (h : better (better x y) z = some e)
    (hy : y ≠ some e) :
    better (better x (some b)) z = some b ∨ better (better x (some b)) z = some e := by
  have trans : ∀ s t u : Specificity, compare s t = .lt → compare t u = .lt → compare s u = .lt :=
    fun _ _ _ => Std.TransCmp.lt_trans
  cases x <;> cases y <;> cases z <;> grind [better]

variable {l m : List (Entry H)} {old : Option (Entry H)} {b e : Entry H}

theorem best?_toList (old : Option (Entry H)) : best? old.toList = old := by
  cases old <;> rfl

theorem best?_join (h : best? (l ++ old.toList ++ m) = some e) (hold : old ≠ some e) :
    best? (l ++ b :: m) = some b ∨ best? (l ++ b :: m) = some e := by
  rw [best?_append, best?_append, best?_toList] at h
  rw [List.append_cons, best?_append, best?_append]
  exact better_join h hold

theorem joins_best? (hold : ∀ e ∈ old, e.pattern.word = b.pattern.word) :
    b.Joins (best? (l ++ old.toList ++ m)) (best? (l ++ b :: m)) := by
  have hsome : (best? (l ++ b :: m)).isSome := isSome_best?.2 ⟨b, by simp⟩
  obtain ⟨z, hz⟩ := Option.isSome_iff_exists.1 hsome
  obtain ⟨hmem, hmax⟩ := mem_of_best? hz
  have hother : z ≠ b → z ∈ l ++ old.toList ++ m := by
    intro hne
    simp only [List.mem_append, List.mem_cons, hne, false_or] at hmem ⊢
    tauto
  have join : ∀ e ∈ best? (l ++ old.toList ++ m), e.pattern.word ≠ b.pattern.word →
      best? (l ++ b :: m) = some b ∨ best? (l ++ b :: m) = some e := by
    intro e he hw
    apply best?_join he
    rintro rfl
    exact hw (hold e rfl)
  refine ⟨fun hn => ?_, join, fun e he hlt => ?_, fun e he hw hlt => ?_⟩
  · rw [best?_eq_none] at hn
    by_contra hne
    have := hother fun h => hne (h ▸ hz)
    rw [hn] at this
    exact List.not_mem_nil this
  · -- any other entry is at most `e` and so less than the one put in
    by_contra hne
    have hze := (mem_of_best? he).2 z (hother fun h => hne (h ▸ hz))
    exact Specificity.not_lt_trans hze (hmax b (by simp)) hlt
  · refine (join e he hw).resolve_left fun hb => ?_
    obtain ⟨-, hmax⟩ := mem_of_best? hb
    apply hmax e _ hlt
    have hne : old ≠ some e := fun ho => hw (hold e ho)
    have he := (mem_of_best? he).1
    simp only [List.mem_append, Option.mem_toList, List.mem_cons] at he ⊢
    tauto

end Entry

namespace Router

namespace Tracks

variable {r : Router H} {as : List (Accepted H)} {a : Accepted H} {s : Text}

theorem select_enter (h : Tracks r as) (hd : ¬ Describes a.batch.word s) :
    (r.enter a).select s = r.select s :=
  congrArg Entry.best?
    (Graph.entries_insert_of_not_describes h.trie a.batch.proper_word hd)

theorem joins_select (h : Tracks r as) (hd : Describes a.batch.word s) :
    a.batch.entry.Joins (r.select s) ((r.enter a).select s) := by
  obtain ⟨l, m, old, hl, hl', hold⟩ :=
    Graph.entries_insert_of_describes (a := a.batch.entry) h.trie a.batch.proper_word hd
  have hw : ∀ e ∈ old, e.pattern.word = a.batch.entry.pattern.word := by
    intro e he
    obtain ⟨i, hi, hs⟩ := hold e he
    rw [h.stored? hi] at hs
    obtain ⟨b, hb, rfl⟩ := Option.map_eq_some_iff.1 hs
    rw [Batch.word_entry, Batch.word_entry, (mem_of_latestOf hb).2]
  rw [select, select, hl, show (r.enter a).graph.entries s = l ++ a.batch.entry :: m from hl']
  exact Entry.joins_best? hw

end Tracks

theorem find?_named_enter {r : Router H} {a : Accepted H} {name : Text} (h : a.name ≠ some name) :
    (r.enter a).named.find? name = r.named.find? name := by
  cases hn : a.name with
  | none => simp only [enter, hn]
  | some m =>
    simp only [enter, hn, Dict.find?_insert]
    rw [if_neg]
    rintro rfl
    exact h hn

section

variable {k : Compiler} {r r' : Router H} {routes : List (Text × H)} {name : Option Text} {m : Text}

theorem config_add (h : r.add k routes name = .ok () r') : r'.config = r.config := by
  obtain ⟨-, rfl⟩ | ⟨-, -, rfl⟩ := add_cases h <;> rfl

theorem find?_named_add (h : r.add k routes name = .ok () r') (hm : name ≠ some m) :
    r'.named.find? m = r.named.find? m := by
  obtain ⟨-, rfl⟩ | ⟨-, -, rfl⟩ := add_cases h
  · rfl
  · exact find?_named_enter hm

theorem eq_enter_of_add {c : Config} {n : Normalizer} {xs : List (Registration H)} (h0 : routes ≠ [])
    (h : (run k c n xs).add k routes name = .ok () r) :
    r = (run k c n xs).enter ⟨Batch.parse n routes, name⟩ := by
  rw [((add_cases h).resolve_left fun hn => h0 hn.1).2.2, normalizer_run]

end

variable (k : Compiler) (c : Config) (n : Normalizer) (xs : List (Registration H))

/-- A registration that succeeds leaves the resolution of every path alone that its batch does not
describe, and the names that are not its own. Where the batch describes a path, its entry joins the
choice. An empty registration leaves everything as it is, and so does one whose pattern is refused,
which is the only way to fail. -/
theorem add_frame (routes : List (Text × H)) (name : Option Text) :
    let r := run k c n xs
    let b := Batch.parse n routes
    (∀ r', r.add k routes name = .ok () r' →
      (routes = [] → r' = r) ∧
      (routes ≠ [] → ∀ address,
        (¬ Describes b.word (workingPath c n address) → r'.resolve address = r.resolve address) ∧
        (Describes b.word (workingPath c n address) →
          b.entry.Joins (r.select (workingPath c n address))
            (r'.select (workingPath c n address)))) ∧
      ∀ m, name ≠ some m → r'.hasName m = r.hasName m ∧ r'.namedRoute m = r.namedRoute m ∧
        r'.endpointsOf m = r.endpointsOf m ∧ ∀ values, r'.address m values = r.address m values) ∧
    ∀ err r', r.add k routes name = .error err r' → routes ≠ [] ∧ r' = r ∧
      ∃ cause, k.compile b.pattern.source = .error cause ∧
        err = .invalidPattern b.pattern.source cause := by
  intro r b
  refine ⟨fun r' h => ⟨fun hn => ?_, fun hn address => ?_, fun m hm => ?_⟩, fun err r' h => ?_⟩
  · exact ((add_cases h).resolve_right fun hr => hr.1 hn).2
  · have htracks := Tracks.run k c n xs
    obtain rfl : r' = r.enter ⟨b, name⟩ := eq_enter_of_add hn h
    refine ⟨fun hd => ?_, fun hd => htracks.joins_select (a := ⟨b, name⟩) hd⟩
    -- the router after the registration is itself the end of a run
    have hrun := eq_run_of_add h
    have hs := htracks.select_enter (a := ⟨b, name⟩) hd
    rw [hrun, resolve_run, resolve_run, ← hrun, hs]
  · have hf := find?_named_add h hm
    have hroute : r'.namedRoute m = r.namedRoute m := by
      rw [namedRoute, namedRoute, hf]
    refine ⟨?_, hroute, ?_, fun values => ?_⟩
    · rw [hasName, hasName, Dict.contains, Dict.contains, hf]
    · rw [endpointsOf, endpointsOf, hroute]
    · rw [address, address, hroute, config_add h]
  · obtain ⟨h0, hr, hk⟩ := of_add_error h
    rw [normalizer_run] at hk
    exact ⟨h0, hr, hk⟩

end Router
end Routing
