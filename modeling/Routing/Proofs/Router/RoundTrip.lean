import Routing.Proofs.Query.Writing
import Routing.Proofs.Router.Agreement
import Routing.Proofs.Router.Written

/-! Resolution of generated addresses. A path that is written for a batch is described by the word of
the batch, its pattern cuts the path into the pieces that were written, and their captures give the
values back. -/

namespace Routing

variable {H : Type} {d : Dict Text} {ss : List Segment} {ps : List Text}

theorem describes_walked {ss : List Segment}
    (h : List.Forall₂ (Segment.Rendered d) (Segment.visible ss) ps) :
    Describes (Segment.word ss) (PathForms.ofPath .percent (pathOf ps)).walked :=
  Segment.describes_walked Normalizer.faithful_percent (h.imp fun _ _ hr => hr.fits)

/-- The hits of a written path bind the values that it was written with. -/
theorem forall₂_binds {b : Batch H} {hits : List (Hit H)} (hn : ∀ s ∈ b.segments, s.Normal .percent)
    (hs : ∀ s ∈ (Segment.visible b.segments).dropLast, s.isStar = false)
    (h : List.Forall₂ (Segment.Rendered d) (Segment.visible b.segments) ps)
    (hh : b.entry.hits? true (.ofPath .percent (pathOf ps)) = some hits) :
    List.Forall₂ (Hit.Binds d) b.endpoints hits :=
  Batch.forall₂_binds Normalizer.faithful_percent Normalizer.faithful_percent hn hs
    (h.imp fun _ _ hr => ⟨hr.fits, hr.returns⟩) hh

theorem splitAddress_append {p q : Text} (hp : '?' ∉ p ∧ '#' ∉ p) (hq : '#' ∉ q)
    (h : q = [] ∨ ∃ t, q = '?' :: t) :
    (splitAddress (p ++ q)).1 = p ∧
      ((splitAddress (p ++ q)).2.map Query.parse).getD Dict.empty =
        Query.parse (q.dropLeading '?') := by
  have hc : Text.cut '#' (p ++ q) = (p ++ q, none) := Text.cut_of_not_mem (by simp [hp.2, hq])
  rw [splitAddress, hc]
  rcases h with rfl | ⟨t, rfl⟩
  · rw [List.append_nil, Text.cut_of_not_mem hp.1]
    exact ⟨rfl, rfl⟩
  · rw [Text.cut_append_sep hp.1]
    exact ⟨rfl, rfl⟩

theorem rooted_pathOf (ps : List Text) : rooted (pathOf ps) = pathOf ps := by
  cases ps <;> rfl

namespace Router

variable {k : Compiler} {c : Config} {n : Normalizer} {xs : List (Registration H)}
  {name : Text} {b : Batch H} {values : Values}

theorem address_of_find? {r : Router H} {route : NamedRoute H} (h : r.named.find? name = some route)
    (values : Values) : r.address name values =
      (route.path name r.config.encodeSegments values.params).map
        (· ++ Query.write values.query.entries) := by
  rw [address, namedRoute, h]
  rfl

theorem address_run (hn : latestNamed name (accepted k n xs) = some b)
    (h : List.Forall₂ (fun s p => s.render c.encodeSegments values.params = some p)
      (Segment.visible b.segments) ps) :
    (run k c n xs).address name values = .ok (pathOf ps ++ Query.write values.query.entries) := by
  have hf : (run k c n xs).named.find? name = some b.namedRoute := by
    rw [(Tracks.run k c n xs).find?, hn]
    rfl
  rw [address_of_find? hf, config_run, NamedRoute.path_eq_pathOf _ _ h]
  rfl

/-- An address that is generated for a batch in force resolves to that batch with the values that
it was generated from, unless another batch that the path belongs to is as specific. -/
theorem resolve_address (hc : c.encodeSegments = true)
    (hn : latestNamed name (accepted k .percent xs) = some b) (hb : b ∈ inForce k .percent xs)
    (hs : ∀ s ∈ (Segment.visible b.segments).dropLast, s.isStar = false)
    (hw : ∀ s ∈ b.segments, s.Writable values.params) :
    ∃ address, (run k c .percent xs).address name values = .ok address ∧
      ((∀ b' ∈ candidates k .percent xs (workingPath c .percent address), b' ≠ b →
          compare b'.specificity b.specificity = .lt) →
        ∃ res, (run k c .percent xs).resolve address = some res ∧
          List.Forall₂ (Hit.Binds values.params) b.endpoints res.hits ∧
          res.query = Query.parse ((Query.write values.query.entries).dropLeading '?') ∧
          (Query.write values.query.entries = [] → res.query = Dict.empty)) := by
  have hnormal := normal_of_mem_inForce hb
  obtain ⟨ps, hps⟩ : ∃ ps, List.Forall₂ (Segment.Rendered values.params)
      (Segment.visible b.segments) ps := by
    apply Segment.exists_forall₂_rendered
    intro s hm
    obtain ⟨hm, he⟩ := List.mem_filter.1 hm
    exact Segment.exists_rendered (hnormal s hm) (hw s hm) (by simpa using he)
  have hmarks : ∀ p ∈ ps, '?' ∉ p ∧ '#' ∉ p := fun p hm => by
    obtain ⟨s, -, hs⟩ := exists_of_mem_forall₂ hps hm
    exact hs.marks
  obtain ⟨hpath, hquery⟩ := splitAddress_append (marks_not_mem_pathOf hmarks)
    (Query.hash_not_mem_write values.query.entries) (Query.write_cases _)
  refine ⟨_, address_run hn (hps.imp fun _ _ hp => hc ▸ hp.render), fun hlt => ?_⟩
  generalize Query.write values.query.entries = q at *
  have hforms : formsOf c .percent (pathOf ps ++ q) = .ofPath .percent (pathOf ps) := by
    rw [formsOf, if_pos hc, hpath, rooted_pathOf]
  have hmem : b ∈ candidates k .percent xs (workingPath c .percent (pathOf ps ++ q)) := by
    rw [mem_candidates, ← walked_formsOf, hforms]
    exact ⟨hb, describes_walked hps⟩
  -- the batch is a candidate, so it wins, and its pattern has a reading
  obtain ⟨hits, hh⟩ := Option.isSome_iff_exists.1
    (isSome_hits?_of_candidate (fun _ => Normalizer.faithful_percent) hmem)
  refine ⟨⟨hits, Query.parse (q.dropLeading '?')⟩, ?_, ?_, rfl, ?_⟩
  · rw [resolve_run, select_of_lt k c _ _ _ hmem hlt, Option.bind_some, hh, hquery]
    rfl
  · rw [hforms, hc] at hh
    exact forall₂_binds hnormal hs hps hh
  · intro h
    rw [h]
    rfl

/-- The value of a star keeps its closing slash, past a batch that is less specific. -/
theorem resolve_address_closing_slash : ∃ address res,
    (run .lenient {} .percent [⟨[(['a', '/', '*', 'r'], 0)], some ['n']⟩,
        ⟨[(['*', 's'], 1)], none⟩]).address ['n'] { params := Dict.ofList [(['r'], ['x', '/'])] } =
        .ok address ∧
      (run .lenient {} .percent [⟨[(['a', '/', '*', 'r'], 0)], some ['n']⟩,
        ⟨[(['*', 's'], 1)], none⟩]).resolve address = some res ∧
      res.hits.map (·.params.find? ['r']) = [some ['x', '/']] := by
  obtain ⟨address, ha, h⟩ := @resolve_address Nat .lenient {}
    [⟨[(['a', '/', '*', 'r'], 0)], some ['n']⟩, ⟨[(['*', 's'], 1)], none⟩] ['n']
    [(⟨[.static ['a'], .star ['r']]⟩, 0)] { params := Dict.ofList [(['r'], ['x', '/'])] }
    rfl rfl (by decide +kernel) (by decide) (by
      intro s hs
      fin_cases hs
      · exact ⟨by decide, by decide⟩
      · exact ⟨['x', '/'], rfl, by decide, by decide, by decide, by decide⟩)
  obtain rfl : address = ['/', 'a', '/', 'x', '/'] := Except.ok.inj (ha.symm.trans rfl)
  obtain ⟨res, hr, hh, -⟩ := h (by decide +kernel)
  refine ⟨_, res, ha, hr, ?_⟩
  obtain ⟨hit, hits, hbind, ht, hres⟩ := List.forall₂_cons_left_iff.1 hh
  rw [hres, List.forall₂_nil_left_iff.1 ht]
  exact congrArg (fun v => [v]) (hbind.find? ['r'])

end Router
end Routing
