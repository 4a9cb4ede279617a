import Routing.Proofs.Pattern.Spelled
import Routing.Proofs.Router.Agreement
import Routing.Proofs.Router.Hits

/-! The two modes on plain paths. With encoding and without it the same form is walked, so the same
batch wins, and the captures of the one are spellings of those of the other. -/

namespace Routing

open Percent (Spells Plain)

variable {H : Type} {r d s t x : Text} {ss : List Segment}

theorem Percent.Spells.dropClosing (h : Spells r d) : Spells (dropClosing r) (dropClosing d) := by
  by_cases hd : Closed d
  · obtain ⟨a, ha, rfl⟩ := hd
    obtain ⟨p, q, rfl, hp, hq⟩ := Spells.append_iff.1 h
    obtain rfl := (Spells.singleton_iff.1 hq).slash
    rw [dropClosing_append_singleton ha,
      dropClosing_append_singleton fun hn => ha (hp.eq_nil_iff.1 hn)]
    exact hp
  · rw [dropClosing_of_not hd, dropClosing_of_not]
    · exact h
    · intro hx
      obtain ⟨a, ha, hr⟩ := hx
      exact hd (h.exists_append_slash ha hr)

theorem Percent.Plain.rooted (h : Plain s) : Plain (rooted s) := by
  unfold Routing.rooted
  split_ifs
  · exact h
  · exact h.slash_cons

theorem mem_of_mem_dropClosing {c : Char} (h : c ∈ dropClosing s) : c ∈ s := by
  unfold dropClosing Text.dropTrailing at h
  split_ifs at h
  · exact List.mem_of_mem_dropLast h
  · exact h
  · exact h

theorem Segment.escapeFree_of_describes (h : Describes (word ss) x) (hx : '%' ∉ x) :
    Pattern.EscapeFree (visible ss) := by
  obtain ⟨ps, hps, rfl⟩ := describes_word.1 h
  intro text ht hm
  obtain ⟨p, hp, rfl⟩ := exists_of_mem_forall₂ hps.flip ht
  exact hx ((mem_pathOf_iff (by decide)).2 ⟨p, hp, hm⟩)

/-- What a parameter takes with encoding and what it takes without: one value for a dynamic segment,
and for a star the value as it was sent and that value decoded. -/
def Param.Takes (p : Param) (v w : Text) : Prop :=
  if p.decode then v = w else Percent.decode? v = some w

structure Hit.Agree (e : Endpoint H) (x y : Hit H) : Prop where
  handler_eq : x.handler = e.handler ∧ y.handler = e.handler
  isDynamic_eq : x.isDynamic = y.isDynamic
  params_eq : ∃ vs : List (Text × Text), List.Forall₂ (fun p v => p.Takes v.1 v.2) e.params vs ∧
    x.params = Dict.ofList ((e.params.map Param.name).zip (vs.map (·.1))) ∧
    y.params = Dict.ofList ((e.params.map Param.name).zip (vs.map (·.2)))

namespace Endpoint

variable {ts us : List Text}

theorem takes_value (p : Param) (h : Spells t s) : p.Takes (value true p t) (value false p s) := by
  have hd := h.decodes.2
  unfold Param.Takes value
  cases p.decode
  · exact hd
  · simp [Percent.decodeOrKeep, hd]

theorem exists_bindings (ps : List Param) (h : List.Forall₂ Spells ts us) :
    ∃ vs : List (Text × Text), List.Forall₂ (fun p v => p.Takes v.1 v.2) ps vs ∧
      bindings true ps ts = (ps.map Param.name).zip (vs.map (·.1)) ∧
      bindings false ps us = (ps.map Param.name).zip (vs.map (·.2)) := by
  induction ps generalizing ts us with
  | nil => exact ⟨[], .nil, rfl, rfl⟩
  | cons p ps ih =>
    obtain ⟨hhead, htail⟩ : Spells (ts.headD []) (us.headD []) ∧ List.Forall₂ Spells ts.tail us.tail := by
      cases h with
      | nil => exact ⟨.nil, .nil⟩
      | cons hs h => exact ⟨hs, h⟩
    obtain ⟨vs, hvs, hx, hy⟩ := ih htail
    refine ⟨(_, _) :: vs, .cons (takes_value p hhead) hvs, ?_, ?_⟩
    · rw [bindings, hx]
      rfl
    · rw [bindings, hy]
      rfl

theorem agree_hit (e : Endpoint H) (h : List.Forall₂ Spells ts us) :
    Hit.Agree e (e.hit true ts) (e.hit false us) := by
  obtain ⟨vs, hvs, hx, hy⟩ := exists_bindings e.params h
  exact ⟨⟨rfl, rfl⟩, rfl, vs, hvs, congrArg _ hx, congrArg _ hy⟩

theorem exists_deal (es : List (Endpoint H)) (h : List.Forall₂ Spells ts us) :
    ∃ zs : List (Hit H × Hit H), deal true es ts = zs.map (·.1) ∧ deal false es us = zs.map (·.2) ∧
      List.Forall₂ (fun e z => Hit.Agree e z.1 z.2) es zs := by
  induction es generalizing ts us with
  | nil => exact ⟨[], rfl, rfl, .nil⟩
  | cons e es ih =>
    obtain ⟨zs, hx, hy, hzs⟩ := ih (List.forall₂_drop e.params.length h)
    exact ⟨(_, _) :: zs, congrArg _ hx, congrArg _ hy, .cons (agree_hit e h) hzs⟩

end Endpoint

namespace Router

variable {k : Compiler} {c : Config} {n : Normalizer} {xs : List (Registration H)} {address : Text}

theorem graph_foldl_enter (r : Router H) (as : List (Accepted H)) : (as.foldl enter r).graph =
    as.foldl (fun g a => g.insert a.batch.word a.batch.entry) r.graph := by
  induction as generalizing r with
  | nil => rfl
  | cons a as ih => exact ih (r.enter a)

/-- Settings have no part in what is registered. -/
theorem select_run (c c' : Config) (w : Text) : (run k c n xs).select w = (run k c' n xs).select w := by
  rw [select, select, run_eq, run_eq, graph_foldl_enter, graph_foldl_enter]
  rfl

theorem workingPath_of_plain (h : Plain (splitAddress address).1) : workingPath c .percent address =
    dropClosing (Normalizer.percent.path (rooted (splitAddress address).1)) := by
  unfold workingPath
  split_ifs
  · rfl
  · simp only [h.rooted.decodeUri_eq]

/-- What captures are read from with encoding spells what they are read from without. -/
theorem spells_textOf {c c' : Config} (hc : c.encodeSegments = true) (hc' : c'.encodeSegments = false)
    (h : Plain (splitAddress address).1) (e : Entry H) :
    Spells (e.textOf (formsOf c .percent address)) (e.textOf (formsOf c' .percent address)) := by
  have hs := h.rooted.spells
  rw [← h.rooted.decodeUri_eq] at hs
  simp only [formsOf, hc, hc', if_true]
  rw [if_neg (by simp), Entry.textOf_ofPath Normalizer.faithful_percent,
    Entry.textOf_ofPath Normalizer.faithful_identity]
  split_ifs
  · exact hs
  · exact hs.dropClosing

theorem escapeFree_of_candidate (h : Plain (splitAddress address).1) {b : Batch H}
    (hb : b ∈ candidates k .percent xs (workingPath c .percent address)) :
    Pattern.EscapeFree (Segment.visible b.segments) := by
  refine Segment.escapeFree_of_describes (mem_candidates.1 hb).2 fun hm => ?_
  rw [workingPath_of_plain h] at hm
  exact h.rooted.spells.percent_not_mem (mem_of_mem_dropClosing hm)

/-- Plain paths resolve in both modes or in neither, to the same handlers in the same order and to
the same query. The values of dynamic segments are the same as well, and those of stars are the same
once decoded, however many stars there are. -/
theorem resolve_of_plain {c c' : Config} (hc : c.encodeSegments = true)
    (hc' : c'.encodeSegments = false) (h : Plain (splitAddress address).1) :
    Option.Rel
      (fun x y => x.query = y.query ∧
        ∃ b ∈ inForce k .percent xs,
          (run k c .percent xs).select (workingPath c .percent address) = some b.entry ∧
          ∃ zs : List (Hit H × Hit H), x.hits = zs.map (·.1) ∧ y.hits = zs.map (·.2) ∧
            List.Forall₂ (fun e z => Hit.Agree e z.1 z.2) b.endpoints zs)
      ((run k c .percent xs).resolve address) ((run k c' .percent xs).resolve address) := by
  have hw : workingPath c' .percent address = workingPath c .percent address := by
    rw [workingPath_of_plain h, workingPath_of_plain h]
  rw [resolve_run, resolve_run, hw, select_run c' c]
  cases hs : (run k c .percent xs).select (workingPath c .percent address) with
  | none => exact .none
  | some e =>
    obtain ⟨⟨b, hb, rfl⟩, -⟩ := of_select k c .percent xs _ hs
    have hcap : Pattern.Alike (b.entry.pattern.captures? (b.entry.textOf (formsOf c .percent address)))
        (b.entry.pattern.captures? (b.entry.textOf (formsOf c' .percent address))) :=
      Pattern.alike_captures? (escapeFree_of_candidate h hb) (spells_textOf hc hc' h b.entry)
    rw [Option.bind_some, Option.bind_some, Entry.hits?_eq, Entry.hits?_eq, hc, hc']
    generalize b.entry.pattern.captures? (b.entry.textOf (formsOf c .percent address)) = ts at hcap ⊢
    generalize b.entry.pattern.captures? (b.entry.textOf (formsOf c' .percent address)) = us at hcap ⊢
    cases hcap with
    | none => exact .none
    | some hts =>
      obtain ⟨zs, hx, hy, hzs⟩ := Endpoint.exists_deal b.endpoints hts
      exact .some ⟨rfl, b, (mem_candidates.1 hb).1, rfl, zs, hx, hy, hzs⟩

/-- A star, a dynamic segment and another star, with escapes in their values. -/
theorem resolve_of_plain_stars : ∃ x y,
    (run .lenient {} .percent [⟨[(['*', 'r', '/', ':', 'i', '/', '*', 't'], 0)], none⟩]).resolve
        ['/', 'a', '/', '%', 'c', '3', '%', 'a', '9', '/', '%', '2', '0'] = some x ∧
      (run .lenient ⟨false⟩ .percent [⟨[(['*', 'r', '/', ':', 'i', '/', '*', 't'], 0)], none⟩]).resolve
        ['/', 'a', '/', '%', 'c', '3', '%', 'a', '9', '/', '%', '2', '0'] = some y ∧
      ∃ zs : List (Hit Nat × Hit Nat), x.hits = zs.map (·.1) ∧ y.hits = zs.map (·.2) ∧
        List.Forall₂ (fun e z => Hit.Agree e z.1 z.2)
          [⟨0, [⟨['r'], false⟩, ⟨['i'], true⟩, ⟨['t'], false⟩]⟩] zs := by
  have h := @resolve_of_plain Nat .lenient [⟨[(['*', 'r', '/', ':', 'i', '/', '*', 't'], 0)], none⟩]
    ['/', 'a', '/', '%', 'c', '3', '%', 'a', '9', '/', '%', '2', '0'] {} ⟨false⟩ rfl rfl
    ⟨by decide, by decide +kernel, by decide⟩
  obtain ⟨x, hx⟩ : ∃ x,
      (run .lenient {} .percent [⟨[(['*', 'r', '/', ':', 'i', '/', '*', 't'], 0)], none⟩]).resolve
        ['/', 'a', '/', '%', 'c', '3', '%', 'a', '9', '/', '%', '2', '0'] = some x :=
    Option.isSome_iff_exists.1 (by decide +kernel)
  rw [hx] at h
  generalize (run .lenient ⟨false⟩ .percent _).resolve _ = r at h ⊢
  cases h with
  | @some _ y h =>
    obtain ⟨-, b, hb, -, hzs⟩ := h
    have hxs : inForce .lenient .percent [⟨[(['*', 'r', '/', ':', 'i', '/', '*', 't'], 0)], none⟩] =
        [[(⟨[.star ['r'], .dynamic ['i'], .star ['t']]⟩, 0)]] := by decide +kernel
    rw [hxs, List.mem_singleton] at hb
    subst hb
    exact ⟨x, y, hx, rfl, hzs⟩

end Router
end Routing
