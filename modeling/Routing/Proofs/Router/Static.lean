import Routing.Proofs.Percent.Uri
import Routing.Proofs.Router.Extraction
import Routing.Proofs.Router.RoundTrip
import Routing.Proofs.Router.Single

/-! A router that holds one batch without parameters. The word of the batch describes the path of its
static texts and nothing else. An address in another spelling reaches it through the normal form,
and without encoding only where decoding the address as a whole gives the same. -/

namespace Routing

variable {H : Type} {d : Dict Text} {s : Segment} {ss : List Segment} {ps ts : List Text} {x p t : Text}

namespace Segment

def text : Segment → Text
  | static t => t
  | _ => []

theorem covers_iff_of_param? (h : s.param? = none) : s.Covers p ↔ p = s.text := by
  cases s with
  | static text => exact Iff.rfl
  | dynamic name => exact nomatch h
  | star name => exact nomatch h
  | epsilon => exact Iff.rfl

theorem render_of_param? (h : s.param? = none) (encode : Bool) : s.render encode d = some s.text := by
  cases s with
  | static text => rfl
  | dynamic name => exact nomatch h
  | star name => exact nomatch h
  | epsilon => rfl

theorem forall₂_covers_iff (h : ∀ s ∈ ss, s.param? = none) :
    List.Forall₂ Covers ss ps ↔ ps = ss.map text := by
  induction ss generalizing ps with
  | nil => simp
  | cons s ss ih =>
    rw [List.forall_mem_cons] at h
    simp [List.forall₂_cons_left_iff, covers_iff_of_param? h.1, ih h.2]

theorem describes_word_of_param? (h : ∀ s ∈ ss, s.param? = none) :
    Describes (word ss) x ↔ x = pathOf ((visible ss).map text) := by
  have hv : ∀ s ∈ visible ss, s.param? = none := fun s hs => h s (List.mem_filter.1 hs).1
  simp [describes_word, forall₂_covers_iff hv]

end Segment

/-- Against a text with as many slashes and none at its end, dropping a closing slash makes no
difference. -/
theorem dropClosing_eq_iff (hp : ¬ Closed p) (hc : x.count '/' = p.count '/') :
    dropClosing x = p ↔ x = p := by
  by_cases hx : Closed x
  · obtain ⟨a, ha, rfl⟩ := hx
    rw [dropClosing_append_singleton ha]
    refine ⟨fun h => ?_, fun h => absurd ⟨a, ha, h.symm⟩ hp⟩
    rw [← h, List.count_append] at hc
    simp at hc
  · rw [dropClosing_of_not hx]

theorem rooted_eq_pathOf (p : Text) : rooted p = pathOf ((p.dropLeading '/').splitOn '/') := by
  rw [rooted_eq, cons_slash_eq_pathOf]

namespace Batch

variable {b : Batch H} {routes : List (Text × H)}

/-- The one path that the word of a batch without parameters describes. -/
def staticPath (b : Batch H) : Text := pathOf ((Segment.visible b.segments).map Segment.text)

theorem params_of_param? (h : ∀ s ∈ b.segments, s.param? = none) : ∀ r ∈ b, r.1.params = [] := by
  intro r hr
  exact List.filterMap_eq_nil_iff.2 fun s hs => h s (List.mem_flatMap.2 ⟨r, hr, hs⟩)

theorem marks_not_mem_staticPath (h : ∀ s ∈ b.segments, '?' ∉ s.text ∧ '#' ∉ s.text) :
    '?' ∉ b.staticPath ∧ '#' ∉ b.staticPath := by
  apply marks_not_mem_pathOf
  intro t ht
  obtain ⟨s, hs, rfl⟩ := List.mem_map.1 ht
  exact h s (List.mem_filter.1 hs).1

theorem exists_of_mem_texts (h : ∀ s ∈ (parse .percent routes).segments, s.param? = none)
    (ht : t ∈ (Segment.visible (parse .percent routes).segments).map Segment.text) :
    ∃ r, '/' ∉ r ∧ r ≠ [] ∧ Normalizer.percent.segment r = t := by
  obtain ⟨s, hs, rfl⟩ := List.mem_map.1 ht
  obtain ⟨hs, he⟩ := List.mem_filter.1 hs
  have hn := normal_parse .percent routes s hs
  have hp := h s hs
  cases s with
  | static text => exact hn
  | dynamic name => exact nomatch hp
  | star name => exact nomatch hp
  | epsilon => exact nomatch he

theorem path_staticPath (h : ∀ s ∈ (parse .percent routes).segments, s.param? = none) :
    Normalizer.percent.path (parse .percent routes).staticPath = (parse .percent routes).staticPath := by
  have hf := Normalizer.faithful_percent
  rw [staticPath, hf.path_pathOf]
  congr 1
  refine (List.map_congr_left fun t ht => ?_).trans (List.map_id _)
  obtain ⟨r, hr, -, rfl⟩ := exists_of_mem_texts h ht
  rw [hf.path_of_not_mem (hf.slash_not_mem hr)]
  exact Normalizer.decodeSegment_idem hr

theorem not_closed_staticPath (h : ∀ s ∈ (parse .percent routes).segments, s.param? = none) :
    ¬ Closed (parse .percent routes).staticPath := by
  have hf := Normalizer.faithful_percent
  intro hx
  obtain ⟨a, ha, he⟩ := hx
  obtain ⟨ts, t, hts⟩ := exists_of_pathOf_eq_append he ha fun t ht => by
    obtain ⟨r, hr, h0, rfl⟩ := exists_of_mem_texts h ht
    exact fun he => h0 ((hf.eq_nil hr).1 he)
  obtain ⟨r, hr, -, hrt⟩ := exists_of_mem_texts h (hts ▸ List.mem_concat_self)
  exact hf.slash_not_mem hr (hrt ▸ List.mem_concat_self)

theorem staticPath_singleton {x : H}
    (h : ∀ q ∈ (p.dropLeading '/').splitOn '/', ∃ text, Segment.parse .percent q = .static text) :
    (parse .percent [(p, x)]).staticPath = Normalizer.percent.path (rooted p) := by
  have hf := Normalizer.faithful_percent
  have hseg : (parse .percent [(p, x)]).segments =
      ((p.dropLeading '/').splitOn '/').map (Segment.parse .percent) := List.append_nil _
  have hv : Segment.visible (parse .percent [(p, x)]).segments = (parse .percent [(p, x)]).segments := by
    refine List.filter_eq_self.2 fun s hs => ?_
    rw [hseg] at hs
    obtain ⟨q, hq, rfl⟩ := List.mem_map.1 hs
    obtain ⟨text, ht⟩ := h q hq
    rw [ht]
    rfl
  rw [rooted_eq_pathOf, hf.path_pathOf, staticPath, hv, hseg, List.map_map]
  congr 1
  refine List.map_congr_left fun q hq => ?_
  obtain ⟨text, ht⟩ := h q hq
  rw [Function.comp_apply, hf.path_of_not_mem (not_mem_of_mem_splitOn hq), ht,
    ← Segment.eq_of_parse_static ht]
  rfl

end Batch

namespace Router

variable {k : Compiler} {c : Config} {routes : List (Text × H)} {r : Router H}

theorem workingPath_eq_iff {address : Text} (hp : ¬ Closed p)
    (h : Normalizer.percent.path (rooted (splitAddress address).1) = p) :
    workingPath c .percent address = p ↔
      c.encodeSegments = true ∨ Percent.decodeUri (rooted (splitAddress address).1) = p := by
  unfold workingPath
  split_ifs with hc
  · simp [hc, h, dropClosing_of_not hp]
  · have hcount := Percent.count_slash_decodeUri (rooted (splitAddress address).1)
    rw [← Normalizer.faithful_percent.count_slash_path (rooted (splitAddress address).1), h] at hcount
    simp [hc, dropClosing_eq_iff hp hcount]

/-- An address whose normal form is the path of the batch resolves with encoding, and without it if
decoding the address as a whole gives that path. -/
theorem resolve_static {name : Option Text} {address : Text} (h0 : routes ≠ [])
    (hadd : (new c .percent).add k routes name = .ok () r)
    (hs : ∀ s ∈ (Batch.parse .percent routes).segments, s.param? = none)
    (h : Normalizer.percent.path (rooted (splitAddress address).1) =
      (Batch.parse .percent routes).staticPath) :
    ((r.resolve address).isSome ↔ c.encodeSegments = true ∨
        Percent.decodeUri (rooted (splitAddress address).1) =
          (Batch.parse .percent routes).staticPath) ∧
      ∀ res, r.resolve address = some res →
        handlers res.hits = routes.map (fun x => (x.2, false)) ∧
        res.query = ((splitAddress address).2.map Query.parse).getD Dict.empty := by
  have hparams := Batch.params_of_param? hs
  obtain ⟨hsome, hres⟩ := resolve_singleton (fun _ => Normalizer.faithful_percent)
    (accepted_of_add h0 hadd) address
  rw [← eq_run_singleton hadd] at hsome hres
  refine ⟨?_, fun res h => ?_⟩
  · rw [hsome, Batch.word, Segment.describes_word_of_param? hs, ← Batch.staticPath,
      workingPath_eq_iff (Batch.not_closed_staticPath hs) h]
  · obtain ⟨hh, hq⟩ := hres res h
    refine ⟨hh.trans ?_, hq⟩
    rw [List.map_congr_left (g := fun r => (r.2, false)) fun r hr => by rw [hparams r hr]; rfl,
      Batch.parse, List.map_map]
    rfl

theorem address_static {name : Text} (h0 : routes ≠ [])
    (hadd : (new c .percent).add k routes (some name) = .ok () r)
    (hs : ∀ s ∈ (Batch.parse .percent routes).segments, s.param? = none) :
    r.address name {} = .ok (Batch.parse .percent routes).staticPath := by
  have hr : List.Forall₂ (fun s p => s.render c.encodeSegments Dict.empty = some p)
      (Segment.visible (Batch.parse .percent routes).segments)
      ((Segment.visible (Batch.parse .percent routes).segments).map Segment.text) := by
    rw [List.forall₂_map_right_iff, List.forall₂_same]
    exact fun s hv => Segment.render_of_param? (hs s (List.mem_filter.1 hv).1) _
  rw [eq_run_singleton hadd]
  exact (address_run (latestNamed_of_add h0 hadd) hr).trans (congrArg _ (List.append_nil _))

/-- The path that is generated for a batch without parameters leads back to its handlers with
encoding, and without it if the path is what it decodes to as a whole. -/
theorem resolve_address_static {name : Text} (h0 : routes ≠ [])
    (hadd : (new c .percent).add k routes (some name) = .ok () r)
    (hs : ∀ s ∈ (Batch.parse .percent routes).segments, s.param? = none)
    (hm : ∀ s ∈ (Batch.parse .percent routes).segments, '?' ∉ s.text ∧ '#' ∉ s.text) :
    ∃ path, r.address name {} = .ok path ∧
      ((r.resolve path).isSome ↔ c.encodeSegments = true ∨ Percent.decodeUri path = path) ∧
      ∀ res, r.resolve path = some res →
        handlers res.hits = routes.map (fun x => (x.2, false)) ∧ res.query = Dict.empty := by
  have hsplit := splitAddress_of_not_mem (Batch.marks_not_mem_staticPath hm)
  have hpath : rooted (splitAddress (Batch.parse .percent routes).staticPath).1 =
      (Batch.parse .percent routes).staticPath := by
    rw [hsplit]
    exact rooted_pathOf _
  obtain ⟨hsome, hres⟩ := resolve_static h0 hadd hs (by rw [hpath, Batch.path_staticPath hs])
  rw [hpath] at hsome
  rw [hsplit] at hres
  exact ⟨_, address_static h0 hadd hs, hsome, hres⟩

/-- A space in a static text is written as it is, which is found without encoding as well. -/
theorem resolve_address_static_space : ∃ (r : Router Nat) (path : Text),
    (new ⟨false⟩ .percent).add .lenient [(['/', 'a', '%', '2', '0', '/'], 0)] (some ['n']) =
        .ok () r ∧
      r.address ['n'] {} = .ok path ∧
      ∃ res, r.resolve path = some res ∧ handlers res.hits = [(0, false)] ∧ res.query = Dict.empty := by
  obtain ⟨r, hadd⟩ : ∃ r : Router Nat,
      (new ⟨false⟩ .percent).add .lenient [(['/', 'a', '%', '2', '0', '/'], 0)] (some ['n']) =
        .ok () r := ⟨_, rfl⟩
  obtain ⟨path, hpath, hsome, hres⟩ :=
    resolve_address_static (by simp) hadd (by decide +kernel) (by decide +kernel)
  have hdecode : Percent.decodeUri path = path := by
    cases hadd
    obtain rfl : ['/', 'a', ' '] = path := Except.ok.inj hpath
    decide +kernel
  obtain ⟨res, h⟩ := Option.isSome_iff_exists.1 (hsome.2 (.inr hdecode))
  exact ⟨r, path, hadd, hpath, res, h, hres res h⟩

/-- A static text may hold the mark of a query, or without encoding an escape that decoding the whole
path opens, and of an empty batch nothing is kept. -/
theorem not_resolve_address_static :
    (run .lenient {} .percent [⟨[(['/', 'a', '%', '3', 'F', 'b'], 0)], some ['n']⟩]).address ['n'] {} =
        .ok ['/', 'a', '?', 'b'] ∧
      ((run .lenient {} .percent [⟨[(['/', 'a', '%', '3', 'F', 'b'], 0)], some ['n']⟩]).resolve
        ['/', 'a', '?', 'b']).isNone ∧
      (run .lenient ⟨false⟩ .percent [⟨[(['/', '1', '%', '2', '5'], 0)], some ['n']⟩]).address ['n'] {} =
        .ok ['/', '1', '%', '2', '5'] ∧
      ((run .lenient ⟨false⟩ .percent [⟨[(['/', '1', '%', '2', '5'], 0)], some ['n']⟩]).resolve
        ['/', '1', '%', '2', '5']).isNone ∧
      (run .lenient {} .percent [(⟨[], some ['n']⟩ : Registration Nat)]).address ['n'] {} =
        .error (.noSuchRoute ['n']) := by
  exact ⟨rfl, rfl, rfl, rfl, rfl⟩

/-- A pattern of static pieces resolves to its own route with encoding, and without it if decoding
the pattern as a whole gives its normal form. -/
theorem resolve_pattern {pattern : Text} {x : H} {name : Option Text}
    (hadd : (new c .percent).add k [(pattern, x)] name = .ok () r)
    (hs : ∀ q ∈ (pattern.dropLeading '/').splitOn '/',
      ∃ text, Segment.parse .percent q = .static text)
    (hm : '?' ∉ pattern ∧ '#' ∉ pattern) :
    ((r.resolve pattern).isSome ↔ c.encodeSegments = true ∨
        Percent.decodeUri (rooted pattern) = Normalizer.percent.path (rooted pattern)) ∧
      ∀ res, r.resolve pattern = some res → handlers res.hits = [(x, false)] := by
  have hp : ∀ s ∈ (Batch.parse .percent [(pattern, x)]).segments, s.param? = none := by
    intro s hmem
    obtain ⟨r, hr, q, hq, rfl⟩ := Batch.mem_segments_parse hmem
    obtain rfl := List.mem_singleton.1 hr
    obtain ⟨text, ht⟩ := hs q hq
    rw [ht]
    rfl
  have hpath : (splitAddress pattern).1 = pattern := by rw [splitAddress_of_not_mem hm]
  obtain ⟨hsome, hres⟩ := resolve_static (List.cons_ne_nil _ _) hadd hp
    (by rw [hpath, Batch.staticPath_singleton hs])
  rw [hpath, Batch.staticPath_singleton hs] at hsome
  exact ⟨hsome, fun res h => (hres res h).1⟩

/-- An escape that stands for no reserved character is found without encoding too. -/
theorem resolve_pattern_space : ∃ r : Router Nat,
    (new ⟨false⟩ .percent).add .lenient [(['a', '%', '2', '0'], 0)] none = .ok () r ∧
      ∃ res, r.resolve ['a', '%', '2', '0'] = some res ∧ handlers res.hits = [(0, false)] := by
  have hq : ∀ q ∈ (Text.dropLeading '/' ['a', '%', '2', '0']).splitOn '/',
      ∃ text, Segment.parse .percent q = .static text := by
    have hs : (['a', '%', '2', '0'] : Text).splitOn '/' = [['a', '%', '2', '0']] := by decide
    intro q hm
    obtain rfl := List.mem_singleton.1 (hs ▸ hm)
    exact ⟨['a', ' '], rfl⟩
  obtain ⟨r, hadd⟩ : ∃ r : Router Nat,
      (new ⟨false⟩ .percent).add .lenient [(['a', '%', '2', '0'], 0)] none = .ok () r := ⟨_, rfl⟩
  obtain ⟨hsome, hres⟩ := resolve_pattern hadd hq (by decide)
  obtain ⟨res, h⟩ := Option.isSome_iff_exists.1 (hsome.2 (.inr (by decide +kernel)))
  exact ⟨r, hadd, res, h, hres res h⟩

/-- Without encoding the escape of a comma stays in the path, but not in the pattern. -/
theorem not_resolve_pattern_comma :
    Segment.parse .percent ['a', '%', '2', 'C', 'b'] = .static ['a', ',', 'b'] ∧
      ((run .lenient ⟨false⟩ .percent [⟨[(['/', 'a', '%', '2', 'C', 'b'], 0)], none⟩]).resolve
        ['/', 'a', '%', '2', 'C', 'b']).isNone := by
  exact ⟨rfl, rfl⟩

end Router
end Routing
