import Routing.Proofs.Batch.Extraction
import Routing.Proofs.Router.Single
import Routing.Proofs.Router.States

/-! Routes that continue one another, against one route whose pattern is theirs joined together. The
segments are the same, so both have one word, one pattern and one path, and the captures of the one
route are those of all routes in a row. -/

namespace Routing

variable {H : Type}

/-- One pattern for patterns that continue one another: without their leading slashes they are joined
by slashes. -/
def Route.joined (patterns : List Text) : Text :=
  '/' :: ['/'].intercalate (patterns.map (Text.dropLeading '/'))

theorem Route.segments_parse_joined (n : Normalizer) {ps : List Text} (h : ps ≠ []) :
    (parse n (joined ps)).segments = ps.flatMap fun p => (parse n p).segments := by
  have hj : (joined ps).dropLeading '/' = ['/'].intercalate (ps.map (Text.dropLeading '/')) := by
    simp [joined, Text.dropLeading]
  rw [parse, hj, splitOn_intercalate_flatMap (by simpa using h), List.flatMap_map, List.map_flatMap]
  rfl

/-- Resolutions of one path by a batch and by one route, which both read the captures from the pattern
of the batch, one for each parameter. What the endpoints of the batch take is, in order, what the one
route takes, and the map of the one route is that of all hits of the batch together. -/
structure Resolution.Joins (decode : Bool) (b : Batch H) (x : H) (forms : PathForms)
    (res res' : Resolution H) : Prop where
  query_eq : res.query = res'.query
  hits : ∃ ts, b.entry.pattern.captures? (b.entry.textOf forms) = some ts ∧
    ts.length = b.params.length ∧
    res.hits = Endpoint.deal decode b.endpoints ts ∧
    res'.hits = Endpoint.deal decode [⟨x, b.params⟩] ts ∧
    res.hits.map Hit.params = (Endpoint.takings decode b.endpoints ts).map Dict.ofList ∧
    (Endpoint.takings decode b.endpoints ts).flatten = Endpoint.bindings decode b.params ts
  merged_eq : res'.hits.map Hit.params = [merged res.hits]

theorem NamedRoute.path_congr {r r' : NamedRoute H} (h : r.segments = r'.segments) (name : Text)
    (encode : Bool) (values : Dict Text) : r.path name encode values = r'.path name encode values := by
  rw [path, path, h]

namespace Batch

variable {n : Normalizer} {routes : List (Text × H)} {b : Batch H} {forms : PathForms} {ts : List Text}

def joined (n : Normalizer) (routes : List (Text × H)) (x : H) : Batch H :=
  parse n [(Route.joined (routes.map (·.1)), x)]

theorem segments_joined (n : Normalizer) (h : routes ≠ []) (x : H) :
    (joined n routes x).segments = (parse n routes).segments := by
  have h0 : routes.map (·.1) ≠ [] := by simpa using h
  have hj := Route.segments_parse_joined n h0
  rw [List.flatMap_map] at hj
  rw [joined, parse, List.map_singleton, segments, List.flatMap_singleton, hj, parse, segments,
    List.flatMap_map]

theorem params_joined (n : Normalizer) (h : routes ≠ []) (x : H) :
    (joined n routes x).params = (parse n routes).params := by
  rw [params_eq_filterMap, segments_joined n h, ← params_eq_filterMap]

theorem endpoints_joined (n : Normalizer) (h : routes ≠ []) (x : H) :
    (joined n routes x).endpoints = [⟨x, (parse n routes).params⟩] := by
  rw [← params_joined n h x, params, joined, parse, List.map_singleton, List.flatMap_singleton]
  rfl

theorem joins_of_captures? (decode : Bool) (x : H) (q : Query)
    (h : b.entry.pattern.captures? (b.entry.textOf forms) = some ts) :
    Resolution.Joins decode b x forms ⟨Endpoint.deal decode b.endpoints ts, q⟩
      ⟨Endpoint.deal decode [⟨x, b.params⟩] ts, q⟩ where
  query_eq := rfl
  hits := by
    refine ⟨ts, h, length_of_captures? h, rfl, rfl, Endpoint.map_params_deal .., ?_⟩
    rw [Endpoint.flatten_takings, ← params_eq]
  merged_eq := by
    rw [Endpoint.merged_deal, ← params_eq]
    rfl

end Batch

namespace Router

variable {k : Compiler} {c : Config} {n : Normalizer} {b b' : Batch H} {xs ys : List (Registration H)}
  {name : Option Text} {x : H}

theorem resolve_joins (ha : accepted k n xs = [⟨b, name⟩]) (ha' : accepted k n ys = [⟨b', name⟩])
    (hs : b'.segments = b.segments) (he : b'.endpoints = [⟨x, b.params⟩]) (address : Text) :
    Option.Rel (Resolution.Joins c.encodeSegments b x (formsOf c n address))
      ((run k c n xs).resolve address) ((run k c n ys).resolve address) := by
  have hw : b'.word = b.word := congrArg Segment.word hs
  have hp : b'.entry.pattern = b.entry.pattern := congrArg Pattern.ofSegments hs
  have ht : b'.entry.textOf (formsOf c n address) = b.entry.textOf (formsOf c n address) := by
    rw [Entry.textOf, Entry.textOf, hp]
  rw [resolve_run, resolve_run, select_singleton ha, select_singleton ha', hw]
  split_ifs with hd
  · rw [Option.bind_some, Option.bind_some, Entry.hits?_eq, Entry.hits?_eq, hp, ht]
    cases hc : b.entry.pattern.captures? (b.entry.textOf (formsOf c n address)) with
    | none => exact .none
    | some ts =>
      have hj := Batch.joins_of_captures? c.encodeSegments x
        (((splitAddress address).2.map Query.parse).getD Dict.empty) hc
      rw [← he] at hj
      exact .some hj
  · exact .none

/-- Routes that continue one another are accepted, counted, resolved and written as the one route of
their joined pattern, whatever their number, their slashes and the names of their parameters. -/
theorem add_joined (k : Compiler) (c : Config) (n : Normalizer) (routes : List (Text × H)) (x : H)
    (name : Text) (h0 : routes ≠ []) :
    let b := Batch.parse n routes
    let route := [(Route.joined (routes.map (·.1)), x)]
    (∃ cause, (new c n).add k routes (some name) =
          .error (.invalidPattern b.pattern.source cause) (new c n) ∧
        (new c n).add k route (some name) =
          .error (.invalidPattern b.pattern.source cause) (new c n)) ∨
      ∃ r r' : Router H, (new c n).add k routes (some name) = .ok () r ∧
        (new c n).add k route (some name) = .ok () r' ∧
        r.stateCount = r'.stateCount ∧
        (∀ address, Option.Rel (Resolution.Joins c.encodeSegments b x (formsOf c n address))
          (r.resolve address) (r'.resolve address)) ∧
        ∀ m values, r.address m values = r'.address m values := by
  intro b route
  have hs : (Batch.parse n route).segments = b.segments := Batch.segments_joined n h0 x
  have hp : (Batch.parse n route).pattern = b.pattern := congrArg Pattern.ofSegments hs
  have h1 : route ≠ [] := List.cons_ne_nil _ _
  -- the same pattern is compiled in both cases, so both are refused or neither
  cases hk : k.compile b.pattern.source with
  | error cause =>
    have hadd' := @add_of_refused H k (new c n) route (some name) cause h1 (hp ▸ hk)
    exact .inl ⟨cause, add_of_refused h0 hk, hp ▸ hadd'⟩
  | ok u =>
    have ha := accepted_singleton (some name) h0 hk
    have ha' := accepted_singleton (some name) h1 (hp ▸ hk)
    refine .inr ⟨_, _, add_eq_run h0 hk, add_eq_run h1 (hp ▸ hk), ?_, ?_, ?_⟩
    · rw [stateCount_run, stateCount_run, acceptedWords, acceptedWords, ha, ha']
      simp [Batch.word, hs, b]
    · exact resolve_joins ha ha' hs (Batch.endpoints_joined n h0 x)
    · intro m values
      have hpath : b.namedRoute.path m c.encodeSegments values.params =
          (Batch.parse n route).namedRoute.path m c.encodeSegments values.params :=
        NamedRoute.path_congr hs.symm m c.encodeSegments values.params
      rw [address_singleton ha, address_singleton ha', hpath]

/-- Three routes, one of them only a slash and two with a parameter of one name. -/
theorem add_joined_three : ∃ (r r' : Router Nat) (res res' : Resolution Nat),
    (new {} .percent).add .lenient [(['/', 'a', '/', ':', 'i'], 0), (['/'], 1), ([':', 'i'], 2)]
        (some ['n']) = .ok () r ∧
      (new {} .percent).add .lenient [(['/', 'a', '/', ':', 'i', '/', '/', ':', 'i'], 3)]
        (some ['n']) = .ok () r' ∧
      r.stateCount = r'.stateCount ∧
      r.resolve ['/', 'a', '/', 'u', '/', 'v', '/'] = some res ∧
      r'.resolve ['/', 'a', '/', 'u', '/', 'v', '/'] = some res' ∧
      res.hits.map Hit.params =
        [Dict.ofList [(['i'], ['u'])], Dict.empty, Dict.ofList [(['i'], ['v'])]] ∧
      res'.hits.map Hit.params = [Dict.ofList [(['i'], ['u']), (['i'], ['v'])]] := by
  rcases add_joined .lenient {} .percent
    [(['/', 'a', '/', ':', 'i'], 0), (['/'], 1), ([':', 'i'], 2)] 3 ['n'] (by simp) with
    ⟨e, he, -⟩ | ⟨r, r', hr, hr', hcount, hres, -⟩
  · exact nomatch he
  · obtain ⟨res, h⟩ := Option.isSome_iff_exists.1 (show
      (r.resolve ['/', 'a', '/', 'u', '/', 'v', '/']).isSome by cases hr; decide +kernel)
    have hj := hres ['/', 'a', '/', 'u', '/', 'v', '/']
    rw [h] at hj
    generalize hres' : r'.resolve _ = o at hj
    cases hj with
    | @some _ res' hj =>
      obtain ⟨ts, hts, -, hhits, hhits', -⟩ := hj.hits
      obtain rfl : [['u'], ['v']] = ts := Option.some.inj (Eq.trans (by decide +kernel) hts)
      exact ⟨r, r', res, res', hr, hr', hcount, h, hres', by rw [hhits]; rfl, by rw [hhits']; rfl⟩

end Router
end Routing
