import Routing.Proofs.Batch.Extraction
import Routing.Proofs.Pattern.Groups
import Routing.Proofs.Router.Forms

/-! Captures, names and flags of a batch line up. The notation of its pattern has one group for each name
that its endpoints declare, in the same order, so no endpoint takes a capture that is meant for another
one, and no name goes without a value. -/

namespace Routing

variable {H : Type}

namespace Endpoint

def names (e : Endpoint H) : List Text := e.params.map Param.name

def flags (e : Endpoint H) : List Bool := e.params.map Param.decode

def decodeIf (flag : Bool) (t : Text) : Text := if flag then Percent.decodeOrKeep t else t

theorem bindings_eq_zip (decode : Bool) {ps : List Param} {ts : List Text}
    (h : ps.length = ts.length) : bindings decode ps ts =
      (ps.map Param.name).zip
        (List.zipWith (fun flag => decodeIf (decode && flag)) (ps.map Param.decode) ts) := by
  induction ps generalizing ts with
  | nil => rfl
  | cons p ps ih =>
    obtain ⟨t, ts, rfl⟩ := List.exists_cons_of_length_eq_add_one h.symm
    exact congrArg _ (ih (Nat.succ.inj h))

theorem value_ne_nil (decode : Bool) (p : Param) {t : Text} (h : t ≠ []) :
    value decode p t ≠ [] := by
  unfold value
  split_ifs
  · exact Percent.decodeOrKeep_ne_nil h
  · exact h

end Endpoint

namespace Segment

variable {ss : List Segment}

theorem name?_eq (s : Segment) : s.name? = s.param?.map Param.name := by cases s <;> rfl

theorem isDynamic_eq (s : Segment) : s.isDynamic = (s.param?.map Param.decode).getD false := by
  cases s <;> rfl

theorem filterMap_name? (ss : List Segment) :
    ss.filterMap name? = (ss.filterMap param?).map Param.name := by
  rw [List.map_filterMap]
  exact List.filterMap_congr fun s _ => s.name?_eq

theorem map_param?_declaring (ss : List Segment) :
    (declaring ss).map param? = (ss.filterMap param?).map some := by
  induction ss with
  | nil => rfl
  | cons s ss ih =>
    rw [declaring] at ih
    rw [declaring, List.filter_cons, List.filterMap_cons, name?_eq, Option.isSome_map]
    cases hs : s.param? with
    | none => exact ih
    | some p => simp [hs, ih]

theorem map_name?_declaring (ss : List Segment) :
    (declaring ss).map name? = ((ss.filterMap param?).map Param.name).map some := by
  have h := congrArg (List.map (Option.map Param.name)) (map_param?_declaring ss)
  rw [List.map_map, List.map_map] at h
  rw [funext name?_eq, List.map_map]
  exact h

theorem map_isDynamic_declaring (ss : List Segment) :
    (declaring ss).map isDynamic = (ss.filterMap param?).map Param.decode := by
  have h := congrArg (List.map fun p : Option Param => (p.map Param.decode).getD false)
    (map_param?_declaring ss)
  rw [List.map_map, List.map_map] at h
  rw [funext isDynamic_eq]
  exact h

theorem ne_nil_of_reads {s : Segment} {p : Text} (h : s.Reads p) {q : Param} (hq : q ∈ s.param?) :
    p ≠ [] := by
  cases s with
  | static text => exact nomatch hq
  | dynamic name => exact h.1
  | star name => exact h
  | epsilon => exact nomatch hq

theorem forall₂_declaring {ps : List Text} (h : List.Forall₂ Reads ss ps) :
    List.Forall₂ Reads (declaring ss) (captures ss ps) := by
  induction h with
  | nil => exact .nil
  | @cons s p ss ps hs _ ih =>
    rw [declaring] at ih
    rw [declaring, List.filter_cons, captures_cons, captured, name?_eq, Option.isSome_map]
    split_ifs
    · exact .cons hs ih
    · exact ih

end Segment

/-- An entry whose groups, names and flags are those of some segments, one by one. -/
structure Entry.LinesUp (e : Entry H) (ss : List Segment) : Prop where
  groups_eq : Pattern.groups e.pattern.source = ss.map Pattern.sourceOf
  names_eq : (e.endpoints.flatMap Endpoint.names).map some = ss.map Segment.name?
  flags_eq : e.endpoints.flatMap Endpoint.flags = ss.map Segment.isDynamic
  length_groups : (Pattern.groups e.pattern.source).length =
    (e.endpoints.flatMap Endpoint.names).length
  /-- Both are read off the one list of parameters of an endpoint. -/
  length_flags : ∀ x ∈ e.endpoints, x.flags.length = x.names.length

/-- A hit that has a value for each name of its endpoint, and for nothing else, out of captures of
its own. -/
structure Hit.Filled (decode : Bool) (e : Endpoint H) (ts : List Text) (x : Hit H) : Prop where
  handler_eq : x.handler = e.handler
  isDynamic_iff : x.isDynamic = true ↔ e.names ≠ []
  length_eq : ts.length = e.names.length
  params_eq : x.params = Dict.ofList
    (e.names.zip (List.zipWith (fun flag => Endpoint.decodeIf (decode && flag)) e.flags ts))
  mem_keys : ∀ k, k ∈ x.params.keys ↔ k ∈ e.names
  ne_nil : ∀ k v, x.params.find? k = some v → v ≠ []

theorem Endpoint.filled_hit (decode : Bool) (e : Endpoint H) {ts : List Text}
    (h : List.Forall₂ (fun _ t => t ≠ []) e.params ts) : Hit.Filled decode e ts (e.hit decode ts) where
  handler_eq := rfl
  isDynamic_iff := by simp [hit, names]
  length_eq := by rw [names, List.length_map, h.length_eq]
  params_eq := by
    rw [hit, bindings_eq_zip decode h.length_eq]
    rfl
  mem_keys k := by
    rw [hit, Dict.mem_keys_ofList, map_fst_bindings]
    rfl
  ne_nil k v hv := by
    obtain ⟨p, -, -, t, ht, rfl⟩ :=
      exists_of_mem_forall₂ (forall₂_bindings decode h) (Dict.mem_of_find?_ofList hv)
    exact value_ne_nil decode p ht

namespace Batch

theorem flatMap_names (b : Batch H) :
    b.endpoints.flatMap Endpoint.names = b.params.map Param.name := by
  rw [params_eq, List.map_flatMap]
  rfl

theorem flatMap_flags (b : Batch H) :
    b.endpoints.flatMap Endpoint.flags = b.params.map Param.decode := by
  rw [params_eq, List.map_flatMap]
  rfl

theorem linesUp_entry (b : Batch H) : b.entry.LinesUp (Segment.declaring b.segments) := by
  have groups : Pattern.groups b.entry.pattern.source =
      (Segment.declaring b.segments).map Pattern.sourceOf := Pattern.groups_ofSegments _
  have names : (b.endpoints.flatMap Endpoint.names).map some =
      (Segment.declaring b.segments).map Segment.name? := by
    rw [Segment.map_name?_declaring, ← params_eq_filterMap, flatMap_names]
  refine ⟨groups, names, ?_, ?_, ?_⟩
  · rw [Segment.map_isDynamic_declaring, ← params_eq_filterMap]
    exact b.flatMap_flags
  · have hl := congrArg List.length names
    rw [List.length_map, List.length_map] at hl
    rw [groups, List.length_map, ← hl]
    rfl
  · intro x _
    rw [Endpoint.flags, Endpoint.names, List.length_map, List.length_map]

theorem forall₂_captures_ne_nil (b : Batch H) {ps : List Text}
    (h : List.Forall₂ Segment.Reads (Segment.visible b.segments) ps) :
    List.Forall₂ (fun _ t => t ≠ []) (b.endpoints.flatMap Endpoint.params)
      (Segment.captures (Segment.visible b.segments) ps) := by
  rw [flatMap_params_endpoints, Segment.forall₂_captures_iff h.length_eq]
  exact h.imp fun _ _ hr _ hq => Segment.ne_nil_of_reads hr hq

end Batch

namespace Router

variable {k : Compiler} {c : Config} {n : Normalizer} {xs : List (Registration H)}

theorem linesUp_of_stored? {i : Nat} {e : Entry H} (h : (run k c n xs).graph.stored? i = some e) :
    ∃ b ∈ inForce k n xs, e = b.entry ∧ e.LinesUp (Segment.declaring b.segments) := by
  obtain ⟨b, hb, -, rfl⟩ := (Tracks.run k c n xs).exists_of_stored? h
  exact ⟨b, hb, rfl, b.linesUp_entry⟩

/-- The captures of a path that resolves fall into one part for each hit. -/
theorem filled_of_resolve {address : Text} {res : Resolution H}
    (h : (run k c n xs).resolve address = some res) :
    ∃ b ∈ inForce k n xs, (run k c n xs).select (workingPath c n address) = some b.entry ∧
      ∃ zs : List (List Text × Hit H),
        b.entry.pattern.captures? (b.entry.textOf (formsOf c n address)) = some (zs.flatMap (·.1)) ∧
        List.Forall₂ Segment.Reads (Segment.declaring b.segments) (zs.flatMap (·.1)) ∧
        res.hits = zs.map (·.2) ∧
        List.Forall₂ (fun e z => Hit.Filled c.encodeSegments e z.1 z.2) b.endpoints zs := by
  obtain ⟨b, hb, hs⟩ := exists_batch_of_resolve h
  obtain ⟨ps, hps, htext, hc, hits⟩ := exists_pieces hs h
  have hd := Segment.forall₂_declaring hps
  obtain ⟨zs, hz, hdeal, hfill⟩ := Endpoint.exists_dealt (b.forall₂_captures_ne_nil hps)
  rw [Segment.declaring_visible, hz] at hd
  refine ⟨b, (mem_candidates.1 hb).1, hs, zs, by rw [htext, hc, hz], hd, by rw [hits, hdeal], ?_⟩
  exact hfill.imp fun e z hx => hx.2 ▸ e.filled_hit _ hx.1

theorem names_of_namedRoute {name : Text} {route : NamedRoute H}
    (h : (run k c n xs).namedRoute name = .ok route) :
    route.segments.filterMap Segment.name? = route.endpoints.flatMap Endpoint.names := by
  rw [namedRoute, (Tracks.run k c n xs).find?] at h
  cases hb : latestNamed name (accepted k n xs) with
  | none =>
    rw [hb] at h
    exact nomatch h
  | some b =>
    rw [hb] at h
    obtain rfl := Except.ok.inj h
    change b.segments.filterMap Segment.name? = b.endpoints.flatMap Endpoint.names
    rw [Segment.filterMap_name?, ← b.params_eq_filterMap, b.flatMap_names]

/-- After any run and under any normalizer, every entry of the graph has one group for each name of its
endpoints: those of the segments with a name, in order, each with that segment's flag. So a path that
resolves has a capture for each group, and each endpoint in turn has a hit with values for exactly its own
names, none of them missing. A named route keeps the names of its endpoints. -/
theorem captures_line_up (k : Compiler) (c : Config) (n : Normalizer) (xs : List (Registration H)) :
    (∀ i e, (run k c n xs).graph.stored? i = some e →
      ∃ b ∈ inForce k n xs, e = b.entry ∧ e.LinesUp (Segment.declaring b.segments)) ∧
    (∀ address res, (run k c n xs).resolve address = some res →
      ∃ b ∈ inForce k n xs, (run k c n xs).select (workingPath c n address) = some b.entry ∧
        ∃ zs : List (List Text × Hit H),
          b.entry.pattern.captures? (b.entry.textOf (formsOf c n address)) =
            some (zs.flatMap (·.1)) ∧
          List.Forall₂ Segment.Reads (Segment.declaring b.segments) (zs.flatMap (·.1)) ∧
          (zs.flatMap (·.1)).length = (Pattern.groups b.entry.pattern.source).length ∧
          res.hits = zs.map (·.2) ∧
          List.Forall₂ (fun e z => Hit.Filled c.encodeSegments e z.1 z.2) b.endpoints zs) ∧
    ∀ name route, (run k c n xs).namedRoute name = .ok route →
      route.segments.filterMap Segment.name? = route.endpoints.flatMap Endpoint.names := by
  refine ⟨fun _ _ => linesUp_of_stored?, fun address res h => ?_, fun _ _ => names_of_namedRoute⟩
  obtain ⟨b, hb, hs, zs, hc, hd, hrest⟩ := filled_of_resolve h
  refine ⟨b, hb, hs, zs, hc, hd, ?_, hrest⟩
  rw [b.linesUp_entry.groups_eq, List.length_map, hd.length_eq]

end Router
end Routing
