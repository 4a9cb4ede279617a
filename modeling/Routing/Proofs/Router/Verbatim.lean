import Routing.Proofs.Percent.Uri
import Routing.Proofs.Router.RoundTrip
import Routing.Proofs.Router.Single

/-! Addresses that are written without encoding. Values stand in the path as they are, so a path without
percent signs is its own decoding, and what is walked, what is read and what is captured are all the
text that was written. -/

namespace Routing

variable {H : Type} {d : Dict Text} {s : Segment} {ss : List Segment} {ps : List Text}

/-- Text without an escape and without the mark of a query or of a fragment. -/
structure Text.Bare (t : Text) : Prop where
  percent_not_mem : '%' ∉ t
  marks_not_mem : '?' ∉ t ∧ '#' ∉ t

namespace Segment

/-- What a segment can be written with as it stands so that it is read back: bare text, values that are
not empty, without a slash for a dynamic segment and not a single slash for a star. -/
def Verbatim (d : Dict Text) : Segment → Prop
  | static text => text.Bare
  | dynamic name => ∃ v, d.find? name = some v ∧ v ≠ [] ∧ '/' ∉ v ∧ v.Bare
  | star name => ∃ v, d.find? name = some v ∧ v ≠ [] ∧ v ≠ ['/'] ∧ v.Bare
  | epsilon => True

structure Copied (d : Dict Text) (s : Segment) (p : Text) : Prop where
  render : s.render false d = some p
  fits : s.Fits .identity p
  returns : ∀ q ∈ s.param?, Endpoint.Returns false d q p
  bare : p.Bare

theorem exists_copied (hn : s.Normal .percent) (hw : s.Verbatim d) (he : s.isEpsilon = false) :
    ∃ p, s.Copied d p := by
  -- a piece without slashes fits if it is not empty and is covered
  have fits : ∀ {p}, s.Covers p → p ≠ [] → '/' ∉ p → s.Fits .identity p := fun hc h0 hp =>
    ⟨hc, reads_of_covers hc, fun h => absurd h hp, h0, fun h => hp (by simp [h])⟩
  cases s with
  | static text =>
    obtain ⟨r, hr, hr0, rfl⟩ := hn
    have h0 := mt (Normalizer.faithful_percent.eq_nil hr).1 hr0
    have hs := Normalizer.faithful_percent.slash_not_mem hr
    exact ⟨_, rfl, fits rfl h0 hs, fun q hq => absurd hq (by simp [param?]), hw⟩
  | dynamic name =>
    obtain ⟨v, hv, h0, hs, hb⟩ := hw
    refine ⟨v, by simp [Segment.render, hv], fits ⟨h0, hs⟩ h0 hs, ?_, hb⟩
    intro q hq
    obtain rfl := Option.some.inj hq
    exact hv
  | star name =>
    obtain ⟨v, hv, h0, h1, hb⟩ := hw
    refine ⟨v, hv, ⟨h0, h0, fun _ => rfl, h0, h1⟩, ?_, hb⟩
    intro q hq
    obtain rfl := Option.some.inj hq
    exact hv
  | epsilon => exact absurd he (by decide)

theorem exists_forall₂_copied (hn : ∀ s ∈ ss, s.Normal .percent) (hw : ∀ s ∈ ss, s.Verbatim d) :
    ∃ ps, List.Forall₂ (Copied d) (visible ss) ps := by
  apply exists_forall₂
  intro s hs
  obtain ⟨hs, he⟩ := List.mem_filter.1 hs
  exact exists_copied (hn s hs) (hw s hs) (by simpa using he)

end Segment

theorem bare_pathOf (h : ∀ p ∈ ps, p.Bare) : Text.Bare (pathOf ps) where
  percent_not_mem := by
    rw [mem_pathOf_iff (by decide)]
    intro hx
    obtain ⟨p, hp, hm⟩ := hx
    exact (h p hp).percent_not_mem hm
  marks_not_mem := marks_not_mem_pathOf fun p hp => (h p hp).marks_not_mem

namespace Router

variable {k : Compiler} {c : Config} {routes : List (Text × H)} {name : Text} {values : Values}
  {r : Router H}

/-- Without encoding, an address that is generated for a batch alone in a router resolves to that batch
with the values that it was generated from. -/
theorem resolve_address_verbatim (hc : c.encodeSegments = false) (h0 : routes ≠ [])
    (hadd : (new c .percent).add k routes (some name) = .ok () r)
    (hs : ∀ s ∈ (Segment.visible (Batch.parse .percent routes).segments).dropLast, s.isStar = false)
    (hw : ∀ s ∈ (Batch.parse .percent routes).segments, s.Verbatim values.params) :
    ∃ address res, r.address name values = .ok address ∧ r.resolve address = some res ∧
      List.Forall₂ (Hit.Binds values.params) (Batch.parse .percent routes).endpoints res.hits ∧
      res.query = Query.parse ((Query.write values.query.entries).dropLeading '?') := by
  have hi := Normalizer.faithful_identity
  have ha := accepted_of_add h0 hadd
  have hn := latestNamed_of_add h0 hadd
  obtain rfl := eq_run_singleton hadd
  have hnormal := Batch.normal_parse .percent routes
  generalize Batch.parse .percent routes = b at *
  obtain ⟨ps, hps⟩ := Segment.exists_forall₂_copied hnormal hw
  have hbare : Text.Bare (pathOf ps) := bare_pathOf fun p hm => by
    obtain ⟨s, -, hs⟩ := exists_of_mem_forall₂ hps hm
    exact hs.bare
  obtain ⟨hpath, hquery⟩ := splitAddress_append hbare.marks_not_mem
    (Query.hash_not_mem_write values.query.entries) (Query.write_cases _)
  have haddress : (run k c .percent [⟨routes, some name⟩]).address name values =
      .ok (pathOf ps ++ Query.write values.query.entries) :=
    address_run hn (hps.imp fun _ _ hp => hc ▸ hp.render)
  generalize Query.write values.query.entries = q at *
  -- the path is its own decoding, and it is looked up and read as it stands
  have hforms : formsOf c .percent (pathOf ps ++ q) = .ofPath .identity (pathOf ps) := by
    rw [formsOf, hc, if_neg (by simp), hpath, rooted_pathOf,
      Percent.decodeUri_of_not_mem hbare.percent_not_mem]
  have hd : Describes b.word (workingPath c .percent (pathOf ps ++ q)) := by
    rw [← walked_formsOf, hforms]
    exact Segment.describes_walked hi (hps.imp fun _ _ hp => hp.fits)
  obtain ⟨res, hres⟩ := Option.isSome_iff_exists.1
    ((resolve_singleton (fun h => absurd (hc.symm.trans h) (by decide)) ha _).1.2 hd)
  refine ⟨_, res, haddress, hres, ?_⟩
  rw [resolve_run, select_singleton ha, if_pos hd, Option.bind_some] at hres
  obtain ⟨hits, hh, rfl⟩ := Option.map_eq_some_iff.1 hres
  rw [hforms, hc] at hh
  exact ⟨Batch.forall₂_binds hi Normalizer.faithful_percent hnormal hs
    (hps.imp fun _ _ hp => ⟨hp.fits, hp.returns⟩) hh, hquery⟩

/-- Two routes, a space in a value, a star that keeps its closing slash, and an escape in the query. -/
theorem resolve_address_verbatim_two_routes : ∃ (r : Router Nat) (address : Text) (res : Resolution Nat),
    (new ⟨false⟩ .percent).add .lenient [(['/', 'a', '/', ':', 'i'], 0), (['*', 'r'], 1)]
        (some ['n']) = .ok () r ∧
      r.address ['n'] { params := Dict.ofList [(['i'], ['x', ' ']), (['r'], ['y', '/', '/'])],
                        query := Dict.ofList [(['q'], some (.single ['%']))] } = .ok address ∧
      address = "/a/x /y//?q=%25".toList ∧
      r.resolve address = some res ∧
      res.hits.map (fun x => (x.handler, x.params.find? ['i'], x.params.find? ['r'])) =
        [(0, some ['x', ' '], none), (1, none, some ['y', '/', '/'])] ∧
      res.query.find? ['q'] = some (.single ['%']) := by
  obtain ⟨address, res, ha, hr, hh, hq⟩ := @resolve_address_verbatim Nat .lenient ⟨false⟩
    [(['/', 'a', '/', ':', 'i'], 0), (['*', 'r'], 1)] ['n']
    { params := Dict.ofList [(['i'], ['x', ' ']), (['r'], ['y', '/', '/'])],
      query := Dict.ofList [(['q'], some (.single ['%']))] } _ rfl (by simp) rfl (by decide) (by
      intro s hs
      fin_cases hs
      · exact ⟨by decide, by decide⟩
      · exact ⟨['x', ' '], rfl, by decide, by decide, by decide, by decide⟩
      · exact ⟨['y', '/', '/'], rfl, by decide, by decide, by decide, by decide⟩)
  refine ⟨_, address, res, rfl, ha, ?_, hr, ?_, ?_⟩
  · exact (Except.ok.inj (ha.symm.trans rfl)).trans (by decide +kernel)
  · obtain ⟨x, xs, hx, ht, hres⟩ := List.forall₂_cons_left_iff.1 hh
    obtain ⟨y, ys, hy, hn, rfl⟩ := List.forall₂_cons_left_iff.1 ht
    rw [hres, List.forall₂_nil_left_iff.1 hn, List.map_cons, List.map_singleton, hx.handler_eq,
      hx.find?, hx.find?, hy.handler_eq, hy.find?, hy.find?]
    rfl
  · rw [hq]
    decide +kernel

end Router
end Routing
