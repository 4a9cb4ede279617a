import Routing.Proofs.Batch.Pieces
import Routing.Proofs.Dict
import Routing.Router.Resolve

/-! The hits of a batch. Handlers come from the batch alone, and the captures are dealt so that each
endpoint binds its own parameters. -/

namespace Routing

open Percent (decodeOrKeep)

variable {H : Type}

def handlers (hits : List (Hit H)) : List (H × Bool) := hits.map fun x => (x.handler, x.isDynamic)

def merged (hits : List (Hit H)) : Dict Text := Dict.ofList (hits.flatMap (·.params.entries))

/-- A hit of an endpoint that binds its own parameters, and nothing else, to their values in `d`. -/
structure Hit.Binds (d : Dict Text) (e : Endpoint H) (x : Hit H) : Prop where
  handler_eq : x.handler = e.handler
  find? : ∀ k, x.params.find? k = if k ∈ e.params.map Param.name then d.find? k else none

namespace Endpoint

variable {decode : Bool} {ps : List Param} {ts us : List Text}

theorem handlers_deal (es : List (Endpoint H)) (ts : List Text) :
    handlers (deal decode es ts) = es.map fun e => (e.handler, ! e.params.isEmpty) := by
  induction es generalizing ts with
  | nil => rfl
  | cons e es ih =>
    rw [List.map_cons, ← ih]
    rfl

theorem bindings_append (decode : Bool) (h : ps.length = ts.length) (qs : List Param) (us : List Text) :
    bindings decode (ps ++ qs) (ts ++ us) = bindings decode ps ts ++ bindings decode qs us := by
  induction ps generalizing ts with
  | nil =>
    obtain rfl := List.length_eq_zero_iff.1 h.symm
    rfl
  | cons p ps ih =>
    obtain ⟨t, ts, rfl⟩ := List.exists_cons_of_length_eq_add_one h.symm
    exact congrArg _ (ih (Nat.succ.inj h))

theorem hit_append (e : Endpoint H) (h : e.params.length = ts.length) (us : List Text) :
    e.hit decode (ts ++ us) = e.hit decode ts := by
  have hb := bindings_append decode h [] us
  rw [List.append_nil, bindings, List.append_nil] at hb
  rw [hit, hit, hb]

theorem deal_append (e : Endpoint H) (es : List (Endpoint H)) (h : e.params.length = ts.length)
    (us : List Text) : deal decode (e :: es) (ts ++ us) = e.hit decode ts :: deal decode es us := by
  rw [deal, hit_append e h, List.drop_left' h.symm]

theorem bindings_congr (h : List.Forall₂ (fun t u => decodeOrKeep t = decodeOrKeep u) ts us)
    (hp : ∀ p ∈ ps, p.decode) : bindings true ps ts = bindings true ps us := by
  induction ps generalizing ts us with
  | nil => rfl
  | cons p ps ih =>
    rw [List.forall_mem_cons] at hp
    cases h with
    | nil => rfl
    | cons ht h => simp [bindings, value, hp.1, ht, ih h hp.2]

theorem deal_congr {es : List (Endpoint H)}
    (h : List.Forall₂ (fun t u => decodeOrKeep t = decodeOrKeep u) ts us)
    (hp : ∀ e ∈ es, ∀ p ∈ e.params, p.decode) : deal true es ts = deal true es us := by
  induction es generalizing ts us with
  | nil => rfl
  | cons e es ih =>
    rw [List.forall_mem_cons] at hp
    rw [deal, deal, hit, hit, bindings_congr h hp.1, ih (List.forall₂_drop _ h) hp.2]

theorem map_fst_bindings (decode : Bool) (ps : List Param) (ts : List Text) :
    (bindings decode ps ts).map (·.1) = ps.map Param.name := by
  induction ps generalizing ts with
  | nil => rfl
  | cons p ps ih => rw [bindings, List.map_cons, ih, List.map_cons]

/-- A capture from which a parameter takes the value that it has in `d`. -/
def Returns (decode : Bool) (d : Dict Text) (p : Param) (t : Text) : Prop :=
  d.find? p.name = some (value decode p t)

variable {d : Dict Text}

theorem forall₂_returns_iff (h : ps.length = ts.length) :
    List.Forall₂ (Returns decode d) ps ts ↔ ∀ e ∈ bindings decode ps ts, d.find? e.1 = some e.2 := by
  induction ps generalizing ts with
  | nil =>
    obtain rfl := List.length_eq_zero_iff.1 h.symm
    simp [bindings]
  | cons p ps ih =>
    obtain ⟨t, ts, rfl⟩ := List.exists_cons_of_length_eq_add_one h.symm
    rw [bindings, List.forall_mem_cons, List.forall₂_cons, List.tail_cons, ih (Nat.succ.inj h)]
    rfl

/-- The captures fall into one part for each endpoint, and its hit is made of that part. -/
theorem exists_dealt {R : Param → Text → Prop} {es : List (Endpoint H)}
    (h : List.Forall₂ R (es.flatMap params) ts) :
    ∃ zs : List (List Text × Hit H), ts = zs.flatMap (·.1) ∧ deal decode es ts = zs.map (·.2) ∧
      List.Forall₂ (fun e z => List.Forall₂ R e.params z.1 ∧ z.2 = e.hit decode z.1) es zs := by
  induction es generalizing ts with
  | nil =>
    obtain rfl := List.forall₂_nil_left_iff.1 h
    exact ⟨[], rfl, rfl, .nil⟩
  | cons e es ih =>
    rw [List.flatMap_cons] at h
    obtain ⟨t, u, rfl, ht, hu⟩ := exists_of_forall₂_append h
    obtain ⟨zs, rfl, hd, hz⟩ := ih hu
    refine ⟨(t, e.hit decode t) :: zs, rfl, ?_, .cons ⟨ht, rfl⟩ hz⟩
    rw [deal_append e es ht.length_eq, hd, List.map_cons]

theorem forall₂_deal_of {R : Param → Text → Prop} {S : Endpoint H → Hit H → Prop}
    {es : List (Endpoint H)} (hs : ∀ {e us}, List.Forall₂ R e.params us → S e (e.hit decode us))
    (h : List.Forall₂ R (es.flatMap params) ts) : List.Forall₂ S es (deal decode es ts) := by
  obtain ⟨zs, -, hd, hz⟩ := exists_dealt h
  rw [hd, List.forall₂_map_right_iff]
  exact hz.imp fun e z hx => hx.2 ▸ hs hx.1

theorem forall₂_deal {es : List (Endpoint H)}
    (h : List.Forall₂ (Returns decode d) (es.flatMap params) ts) :
    List.Forall₂ (Hit.Binds d) es (deal decode es ts) := by
  refine forall₂_deal_of (fun {e us} hr => ⟨rfl, fun k => ?_⟩) h
  rw [← map_fst_bindings decode e.params us]
  exact Dict.find?_ofList_of_agree ((forall₂_returns_iff hr.length_eq).1 hr) k

theorem returns_bindings (decode : Bool) (h : ps.length = ts.length) (hn : (ps.map Param.name).Nodup) :
    List.Forall₂ (Returns decode (Dict.ofList (bindings decode ps ts))) ps ts := by
  rw [← map_fst_bindings decode ps ts] at hn
  exact (forall₂_returns_iff h).2 fun _ he => Dict.find?_ofList_of_nodup hn he

theorem find?_merged {es : List (Endpoint H)} {hits : List (Hit H)}
    (h : List.Forall₂ (Hit.Binds d) es hits) {p : Param} (hp : p ∈ es.flatMap params) {v : Text}
    (hv : d.find? p.name = some v) : (merged hits).find? p.name = some v := by
  have agree : ∀ e ∈ hits.flatMap (·.params.entries), d.find? e.1 = some e.2 := by
    intro e he
    obtain ⟨x, hx, he⟩ := List.mem_flatMap.1 he
    obtain ⟨y, -, hy⟩ := exists_of_mem_forall₂ h hx
    have hf := hy.find? e.1
    rw [Dict.find?_eq_some_iff.2 he] at hf
    split_ifs at hf
    exact hf.symm
  obtain ⟨e, he, hpe⟩ := List.mem_flatMap.1 hp
  obtain ⟨x, hx, hb⟩ := exists_of_mem_forall₂ h.flip he
  have hf : x.params.find? p.name = some v := by
    rw [hb.find?, if_pos (List.mem_map_of_mem hpe), hv]
  rw [merged, Dict.find?_ofList_of_agree agree, if_pos, hv]
  exact List.mem_map.2 ⟨_, List.mem_flatMap.2 ⟨x, hx, Dict.find?_eq_some_iff.1 hf⟩, rfl⟩

/-- With pairwise different names all values are found again in the hits taken together. -/
theorem returns_merged {es : List (Endpoint H)} (hl : (es.flatMap params).length = ts.length)
    (hn : ((es.flatMap params).map Param.name).Nodup) :
    List.Forall₂ (Returns decode (merged (deal decode es ts))) (es.flatMap params) ts := by
  have hr := returns_bindings decode hl hn
  refine List.forall₂_iff_zip.2 ⟨hl, fun hz => ?_⟩
  exact find?_merged (forall₂_deal hr) (List.of_mem_zip hz).1 ((List.forall₂_iff_zip.1 hr).2 hz)

/-- The names and values that the endpoints take from the captures, endpoint by endpoint. -/
def takings (decode : Bool) : List (Endpoint H) → List Text → List (List (Text × Text))
  | [], _ => []
  | e :: es, ts => bindings decode e.params ts :: takings decode es (ts.drop e.params.length)

theorem map_params_deal (decode : Bool) (es : List (Endpoint H)) (ts : List Text) :
    (deal decode es ts).map Hit.params = (takings decode es ts).map Dict.ofList := by
  induction es generalizing ts with
  | nil => rfl
  | cons e es ih => exact congrArg _ (ih _)

theorem bindings_append_drop (decode : Bool) (ps qs : List Param) (ts : List Text) :
    bindings decode (ps ++ qs) ts =
      bindings decode ps ts ++ bindings decode qs (ts.drop ps.length) := by
  induction ps generalizing ts with
  | nil => rfl
  | cons p ps ih =>
    rw [List.cons_append, bindings, ih, bindings, List.cons_append, List.length_cons, List.drop_tail]

theorem flatten_takings (decode : Bool) (es : List (Endpoint H)) (ts : List Text) :
    (takings decode es ts).flatten = bindings decode (es.flatMap params) ts := by
  induction es generalizing ts with
  | nil => rfl
  | cons e es ih => rw [takings, List.flatten_cons, ih, List.flatMap_cons, bindings_append_drop]

theorem merged_deal (decode : Bool) (es : List (Endpoint H)) (ts : List Text) :
    merged (deal decode es ts) = Dict.ofList (bindings decode (es.flatMap params) ts) := by
  have h := congrArg (List.flatMap Dict.entries) (map_params_deal decode es ts)
  rw [List.flatMap_map, List.flatMap_map] at h
  rw [merged, h, Dict.ofList_flatMap_entries, flatten_takings]

/-- Of the parameters with one name the last one counts. -/
def param? (e : Endpoint H) (k : Text) : Option Param := (e.params.filter (·.name = k)).getLast?

theorem forall₂_bindings (decode : Bool) {R : Param → Text → Prop} (h : List.Forall₂ R ps ts) :
    List.Forall₂ (fun p x => p.name = x.1 ∧ ∃ t, R p t ∧ x.2 = value decode p t) ps
      (bindings decode ps ts) := by
  induction h with
  | nil => exact .nil
  | cons hr _ ih => exact .cons ⟨rfl, _, hr, rfl⟩ ih

theorem find?_hit (decode : Bool) {R : Param → Text → Prop} {e : Endpoint H} {k : Text} {p : Param}
    (h : List.Forall₂ R e.params ts) (hp : e.param? k = some p) :
    ∃ t, R p t ∧ (e.hit decode ts).params.find? k = some (value decode p t) := by
  have hb := forall₂_bindings decode h
  have hf := List.rel_filter (p := (·.name = k)) (q := (·.1 = k))
    (fun p x hx => by simp [hx.1]) hb
  obtain ⟨qs, hqs⟩ := List.getLast?_eq_some_iff.1 hp
  rw [hqs] at hf
  obtain ⟨bs, ⟨_, v⟩, hbs, -, -, t, ht, rfl⟩ := forall₂_append_singleton hf.flip
  refine ⟨t, ht, ?_⟩
  rw [hit, Dict.find?_ofList, hbs, List.getLast?_concat]
  rfl

end Endpoint
end Routing
