import Routing.Proofs.Batch.Ending
import Routing.Proofs.Router.Frame

/-! The ends of the patterns that a router stores. Whether the last visible segment of a batch is a star
is read off the notation of its pattern, not off its segments, and the reading is right for every batch
that is accepted, whatever a normalizer makes of its static texts. -/

namespace Routing

variable {H : Type}

/-- An entry whose notation is written segment by segment for these segments, and shows at its end
whether the last visible one is a star. -/
structure Entry.EndsAs (e : Entry H) (ss : List Segment) : Prop where
  source_eq : e.pattern.source =
    '^' :: pathOf ((Segment.visible ss).map Pattern.sourceOf) ++ ['$']
  closesWithStar_iff : e.pattern.closesWithStar = true ↔
    ∃ name, (Segment.visible ss).getLast? = some (.star name)
  /-- A slash that was dropped is given back to a star at the end, and to no other segment. -/
  textOf_eq_iff : ∀ p, e.textOf p = p.read ++ ['/'] ↔
    p.slashDropped = true ∧ ∃ name, (Segment.visible ss).getLast? = some (.star name)

theorem Entry.textOf_eq_append_iff (e : Entry H) (p : PathForms) :
    e.textOf p = p.read ++ ['/'] ↔ p.slashDropped = true ∧ e.pattern.closesWithStar = true := by
  rw [textOf, ← Bool.and_eq_true]
  split_ifs with h
  · exact ⟨fun _ => h, fun _ => rfl⟩
  · exact ⟨fun hp => absurd hp (by simp), fun hb => absurd hb h⟩

theorem Batch.endsAs_entry (b : Batch H) : b.entry.EndsAs b.segments := by
  have closes : b.entry.pattern.closesWithStar = true ↔
      ∃ name, (Segment.visible b.segments).getLast? = some (.star name) := by
    rw [← Segment.any_isStar_iff, ← Pattern.closesWithStar_ofSegments]
    rfl
  refine ⟨Pattern.source_ofSegments b.segments, closes, fun p => ?_⟩
  rw [Entry.textOf_eq_append_iff, closes]

namespace Router

variable {k : Compiler} {c : Config} {n : Normalizer} {xs : List (Registration H)}
  {routes : List (Text × H)} {name : Option Text} {r : Router H}

theorem Tracks.exists_stored?_enter {as : List (Accepted H)} (h : Tracks r as) (a : Accepted H) :
    ∃ i, (r.enter a).graph.Leads a.batch.word i ∧
      (r.enter a).graph.stored? i = some a.batch.entry := by
  obtain ⟨i, hi⟩ := (h.enter a).leads a (by simp)
  refine ⟨i, hi, ?_⟩
  rw [(h.enter a).stored? hi, List.map_append, List.map_singleton, latestOf_append_singleton,
    if_pos rfl]
  rfl

/-- A batch that is accepted has its entry stored at the end of its word, and the notation of that entry
closes with the capture of a star just when the last visible segment of the batch is a star. The same
holds, with batches of their own, of all other entries that are stored by then. -/
theorem closesWithStar_of_add (k : Compiler) (c : Config) (n : Normalizer) (xs : List (Registration H))
    (routes : List (Text × H)) (name : Option Text) {r : Router H} (h0 : routes ≠ [])
    (h : (run k c n xs).add k routes name = .ok () r) :
    let b := Batch.parse n routes
    (∃ i, r.graph.Leads b.word i ∧ r.graph.stored? i = some b.entry ∧ b.entry.EndsAs b.segments) ∧
      ∀ i e, r.graph.stored? i = some e →
        ∃ b' ∈ inForce k n (xs ++ [⟨routes, name⟩]), r.graph.Leads b'.word i ∧ e = b'.entry ∧
          e.EndsAs b'.segments := by
  intro b
  refine ⟨?_, fun i e hs => ?_⟩
  · obtain ⟨i, hl, hs⟩ := (Tracks.run k c n xs).exists_stored?_enter ⟨b, name⟩
    rw [← eq_enter_of_add h0 h] at hl hs
    exact ⟨i, hl, hs, b.endsAs_entry⟩
  · rw [eq_run_of_add h] at hs ⊢
    obtain ⟨b', hb, hl, rfl⟩ := (Tracks.run k c n _).exists_of_stored? hs
    exact ⟨b', hb, hl, rfl, b'.endsAs_entry⟩

/-- A static text that is spelled like the capture of a star, first behind a star, and then in front of
one with an empty route behind. -/
theorem closesWithStar_of_add_spelled :
    let n := Normalizer.substitute fun d => if d = '~' then Pattern.restSource else [d]
    (∃ (r : Router Nat) (i : Nat) (e : Entry Nat),
      (run .lenient {} n []).add .lenient [(['*', 'r', '/', '~'], 0)] none = .ok () r ∧
        r.graph.stored? i = some e ∧ e.endpoints.map Endpoint.handler = [0] ∧
        e.pattern.closesWithStar = false) ∧
    ∃ (r : Router Nat) (i : Nat) (e : Entry Nat),
      (run .lenient {} n []).add .lenient [(['~', '/', '*', 's'], 1), (['/'], 2)] none = .ok () r ∧
        r.graph.stored? i = some e ∧ e.endpoints.map Endpoint.handler = [1, 2] ∧
        e.pattern.closesWithStar = true := by
  intro n
  refine ⟨?_, ?_⟩
  · obtain ⟨⟨i, -, hs, he⟩, -⟩ :=
      closesWithStar_of_add .lenient {} n [] [(['*', 'r', '/', '~'], 0)] none (by simp) rfl
    refine ⟨_, i, _, rfl, hs, rfl, ?_⟩
    rw [Bool.eq_false_iff, Ne, he.closesWithStar_iff]
    intro hl
    obtain ⟨name, hl⟩ := hl
    exact nomatch hl
  · obtain ⟨⟨i, -, hs, he⟩, -⟩ :=
      closesWithStar_of_add .lenient {} n [] [(['~', '/', '*', 's'], 1), (['/'], 2)] none (by simp) rfl
    exact ⟨_, i, _, rfl, hs, rfl, he.closesWithStar_iff.2 ⟨['s'], rfl⟩⟩

end Router
end Routing
