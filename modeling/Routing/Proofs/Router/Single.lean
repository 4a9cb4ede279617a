import Routing.Proofs.Router.Agreement
import Routing.Proofs.Router.Hits

/-! A router that holds one batch. It resolves what the word of the batch describes, and always to the
handlers of the batch. -/

namespace Routing

variable {H : Type}

namespace Router

variable {k : Compiler} {c : Config} {n : Normalizer} {xs : List (Registration H)}
  {routes : List (Text × H)} {name : Option Text} {b : Batch H}

theorem latestNamed_of_add {name : Text} {r : Router H} (h0 : routes ≠ [])
    (h : (new c n).add k routes (some name) = .ok () r) :
    latestNamed name (accepted k n [⟨routes, some name⟩]) = some (Batch.parse n routes) := by
  rw [accepted_of_add h0 h]
  simp [latestNamed]

theorem eq_of_mem_inForce_singleton (h : b ∈ inForce k n [⟨routes, name⟩]) :
    b = Batch.parse n routes := by
  obtain ⟨a, ha, rfl⟩ := List.mem_map.1 (mem_of_mem_standing h)
  obtain ⟨x, hx, -, -, rfl⟩ := mem_accepted.1 ha
  rw [List.mem_singleton.1 hx]

theorem mem_candidates_singleton (ha : accepted k n xs = [⟨b, name⟩]) {b' : Batch H} {s : Text} :
    b' ∈ candidates k n xs s ↔ b' = b ∧ Describes b.word s := by
  rw [mem_candidates, inForce, ha, List.map_singleton, standing, standing, if_neg (by simp),
    List.mem_singleton]
  exact and_congr_right fun h => by rw [h]

theorem select_singleton (ha : accepted k n xs = [⟨b, name⟩]) (w : Text) :
    (run k c n xs).select w = if Describes b.word w then some b.entry else none := by
  cases hs : (run k c n xs).select w with
  | none =>
    have h := isSome_select k c n xs w
    rw [hs] at h
    rw [if_neg fun hd => by simpa using h.2 ⟨b, (mem_candidates_singleton ha).2 ⟨rfl, hd⟩⟩]
  | some e =>
    obtain ⟨⟨b', hb', rfl⟩, -⟩ := of_select k c n xs w hs
    obtain ⟨rfl, hd⟩ := (mem_candidates_singleton ha).1 hb'
    rw [if_pos hd]

theorem address_singleton {name m : Text} (ha : accepted k n xs = [⟨b, some name⟩]) (values : Values) :
    (run k c n xs).address m values =
      if name = m then
        (b.namedRoute.path m c.encodeSegments values.params).map (· ++ Query.write values.query.entries)
      else .error (.noSuchRoute m) := by
  rw [address, namedRoute, (Tracks.run k c n xs).find?, ha, config_run]
  by_cases hm : name = m
  · subst hm
    simp [latestNamed]
    rfl
  · simp [latestNamed, hm, bind, Except.bind]

theorem resolve_singleton (hf : c.encodeSegments = true → n.Faithful)
    (ha : accepted k n xs = [⟨b, name⟩]) (address : Text) :
    (((run k c n xs).resolve address).isSome ↔ Describes b.word (workingPath c n address)) ∧
      ∀ res, (run k c n xs).resolve address = some res →
        handlers res.hits = b.map (fun r => (r.2, ! r.1.params.isEmpty)) ∧
        res.query = ((splitAddress address).2.map Query.parse).getD Dict.empty := by
  refine ⟨?_, fun res hres => ?_⟩
  · rw [isSome_resolve hf]
    simp [mem_candidates_singleton ha]
  · rw [resolve_run, Option.bind_eq_some_iff] at hres
    obtain ⟨e, he, hres⟩ := hres
    obtain ⟨hits, hh, rfl⟩ := Option.map_eq_some_iff.1 hres
    obtain ⟨⟨b', hb', rfl⟩, -⟩ := of_select k c n xs _ he
    obtain ⟨rfl, -⟩ := (mem_candidates_singleton ha).1 hb'
    rw [Entry.hits?_eq] at hh
    obtain ⟨ts, -, rfl⟩ := Option.map_eq_some_iff.1 hh
    refine ⟨?_, rfl⟩
    rw [Endpoint.handlers_deal, Batch.entry, Batch.endpoints, List.map_map]
    rfl

end Router

end Routing
