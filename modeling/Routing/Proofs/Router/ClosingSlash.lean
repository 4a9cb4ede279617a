import Routing.Proofs.Batch.Rendering
import Routing.Proofs.Batch.Extraction
import Routing.Proofs.Pattern.ClosingSlash
import Routing.Proofs.Percent.Scan
import Routing.Proofs.Router.Single

/-! Addresses with and without a slash behind them. What is walked is the same, so the same batch wins.
The slash is dropped from what captures are read from as well, unless the batch closes with a star,
whose value gets it. -/

namespace Routing

variable {H : Type} {p r : Text}

theorem not_closed_of_getLast? (h : r.getLast? ≠ some '/') : ¬ Closed r := by
  intro hr
  obtain ⟨a, -, rfl⟩ := hr
  exact h List.getLast?_concat

theorem rooted_append (h : p ≠ []) (t : Text) : rooted (p ++ t) = rooted p ++ t := by
  obtain ⟨c, p, rfl⟩ := List.exists_cons_of_ne_nil h
  unfold rooted
  rw [List.cons_append, List.head?_cons, List.head?_cons]
  split_ifs <;> rfl

theorem rooted_ne_nil (p : Text) : rooted p ≠ [] := rooted_eq p ▸ List.cons_ne_nil _ _

theorem getLast?_rooted (h : p ≠ []) (hl : p.getLast? ≠ some '/') :
    (rooted p).getLast? ≠ some '/' := by
  obtain ⟨c, p, rfl⟩ := List.exists_cons_of_ne_nil h
  unfold rooted
  split_ifs
  · exact hl
  · rwa [List.getLast?_cons_cons]

namespace PathForms

variable {n : Normalizer}

/-- Both texts are walked alike, and the slash stays where a star closes the pattern. -/
theorem forms_append_slash (h : n.Faithful) (h0 : r ≠ []) (hr : r.getLast? ≠ some '/') :
    (ofPath n (r ++ ['/'])).walked = (ofPath n r).walked ∧
      ∀ e : Entry H, e.textOf (ofPath n r) = r ∧ e.textOf (ofPath n (r ++ ['/'])) =
        if e.pattern.closesWithStar then r ++ ['/'] else r := by
  have hn := not_closed_of_getLast? hr
  refine ⟨?_, fun e => ⟨?_, ?_⟩⟩
  · rw [ofPath, ofPath, walked_trim, walked_trim, ← h.path_dropClosing, ← h.path_dropClosing,
      dropClosing_append_singleton h0, dropClosing_of_not hn]
  · rw [Entry.textOf_ofPath h, dropClosing_of_not hn, ite_self]
  · rw [Entry.textOf_ofPath h, dropClosing_append_singleton h0]

end PathForms

namespace Router

variable {c : Config} {n : Normalizer}

theorem exists_formsOf (h : c.encodeSegments = true → n.Faithful) (hp : p ≠ [])
    (hm : '?' ∉ p ∧ '#' ∉ p) (hs : p.getLast? ≠ some '/') :
    ∃ (m : Normalizer) (r : Text), m.Faithful ∧ r ≠ [] ∧ r.getLast? ≠ some '/' ∧
      formsOf c n p = .ofPath m r ∧ formsOf c n (p ++ ['/']) = .ofPath m (r ++ ['/']) := by
  have hsplit : (splitAddress p).1 = p := by rw [splitAddress_of_not_mem hm]
  have hsplit' : (splitAddress (p ++ ['/'])).1 = p ++ ['/'] := by
    rw [splitAddress_of_not_mem (by simp [hm.1, hm.2])]
  have hlast := getLast?_rooted hp hs
  unfold formsOf
  rw [hsplit, hsplit', rooted_append hp]
  split_ifs with hc
  · exact ⟨n, rooted p, h hc, rooted_ne_nil p, hlast, rfl, rfl⟩
  · refine ⟨.identity, Percent.decodeUri (rooted p), Normalizer.faithful_identity, ?_,
      Percent.getLast?_decodeUri hlast, rfl, ?_⟩
    · intro h0
      have hcount := Percent.count_slash_decodeUri (rooted p)
      rw [h0, rooted_eq] at hcount
      simp at hcount
    · simp only [Percent.decodeUri_append_singleton]

end Router

/-- A hit in which the value of `name` has got a slash behind it. -/
structure Hit.Slashed (name : Text) (x y : Hit H) : Prop where
  handler_eq : x.handler = y.handler
  isDynamic_eq : x.isDynamic = y.isDynamic
  params_eq : ∃ v, x.params.find? name = some v ∧ y.params = x.params.insert name (v ++ ['/'])

/-- Hits of which the last one with parameters has got a slash, in the value of `name`. -/
def SlashedLast (name : Text) (xs ys : List (Hit H)) : Prop :=
  ∃ before x y after, xs = before ++ x :: after ∧ ys = before ++ y :: after ∧
    Hit.Slashed name x y ∧ ∀ z ∈ after, z.isDynamic = false

theorem SlashedLast.cons {name : Text} {xs ys : List (Hit H)} (h : SlashedLast name xs ys)
    (z : Hit H) : SlashedLast name (z :: xs) (z :: ys) := by
  obtain ⟨before, x, y, after, rfl, rfl, hxy, ha⟩ := h
  exact ⟨z :: before, x, y, after, rfl, rfl, hxy, ha⟩

namespace Endpoint

variable {decode : Bool} {name t : Text} {ps qs : List Param} {ts : List Text}

theorem deal_of_params_nil {es : List (Endpoint H)} (h : ∀ e ∈ es, e.params = []) (ts us : List Text) :
    deal decode es ts = deal decode es us ∧ ∀ z ∈ deal decode es ts, z.isDynamic = false := by
  induction es generalizing ts us with
  | nil => exact ⟨rfl, by simp [deal]⟩
  | cons e es ih =>
    rw [List.forall_mem_cons] at h
    obtain ⟨heq, hz⟩ := ih h.2 ts us
    have hdeal (vs : List Text) : deal decode (e :: es) vs =
        (⟨e.handler, Dict.empty, false⟩ : Hit H) :: deal decode es vs := by
      rw [deal, hit, h.1]
      rfl
    rw [hdeal, hdeal, heq]
    refine ⟨rfl, List.forall_mem_cons.2 ⟨rfl, heq ▸ hz⟩⟩

theorem slashed_hit {e : Endpoint H} (he : e.params = ps ++ [⟨name, false⟩])
    (hl : ps.length = ts.length) :
    Hit.Slashed name (e.hit decode (ts ++ [t])) (e.hit decode (ts ++ [t ++ ['/']])) := by
  have hv (u : Text) : bindings decode e.params (ts ++ [u]) = bindings decode ps ts ++ [(name, u)] := by
    rw [he, bindings_append _ hl]
    simp [bindings, value]
  refine ⟨rfl, rfl, t, ?_, ?_⟩
  · rw [hit, hv, Dict.find?_ofList_append_singleton, if_pos rfl]
  · rw [hit, hit, hv, hv, Dict.ofList_append_singleton, Dict.ofList_append_singleton,
      Dict.insert_insert]

theorem slashedLast_deal {es : List (Endpoint H)} (he : es.flatMap params = ps ++ [⟨name, false⟩])
    (hl : ps.length = ts.length) :
    SlashedLast name (deal decode es (ts ++ [t])) (deal decode es (ts ++ [t ++ ['/']])) := by
  induction es generalizing ps ts with
  | nil => simp at he
  | cons e es ih =>
    rw [List.flatMap_cons] at he
    rcases List.eq_nil_or_concat' (es.flatMap params) with hn | ⟨qs, q, hq⟩
    · -- the last parameter belongs to this endpoint
      rw [hn, List.append_nil] at he
      have hlen (u : Text) : e.params.length = (ts ++ [u]).length := by simp [he, hl]
      have hd (u : Text) : deal decode (e :: es) (ts ++ [u]) =
          e.hit decode (ts ++ [u]) :: deal decode es [] := by
        rw [← deal_append e es (hlen u), List.append_nil]
      refine ⟨[], _, _, _, hd t, hd (t ++ ['/']), slashed_hit he hl, ?_⟩
      exact (deal_of_params_nil (List.flatMap_eq_nil_iff.1 hn) _ []).2
    · rw [hq, ← List.append_assoc] at he
      obtain ⟨rfl, hlast⟩ := List.append_inj' he rfl
      obtain rfl := List.head_eq_of_cons_eq hlast
      rw [List.length_append] at hl
      have hlen : e.params.length = (ts.take e.params.length).length := by
        rw [List.length_take]
        omega
      rw [← List.take_append_drop e.params.length ts, List.append_assoc, List.append_assoc,
        deal_append e es hlen, deal_append e es hlen]
      refine (ih hq ?_).cons _
      rw [List.length_drop]
      omega

end Endpoint

/-- What a slash behind an address does to the hits of a batch with this last segment. -/
def SlashAdded : Option Segment → List (Hit H) → List (Hit H) → Prop
  | some (.star name), xs, ys => SlashedLast name xs ys
  | _, xs, ys => xs = ys

theorem SlashAdded.refl {o : Option Segment} (h : o.any Segment.isStar = false) (xs : List (Hit H)) :
    SlashAdded o xs xs := by
  match o with
  | none => rfl
  | some s =>
    cases s with
    | star name => exact nomatch h
    | static text | dynamic name | epsilon => rfl

theorem Segment.exists_captures_star {vs : List Segment} {name : Text} {ps : List Text}
    (h : List.Forall₂ Reads (vs ++ [.star name]) ps) : ∃ us t,
      captures (vs ++ [.star name]) ps = us ++ [t] ∧ us.length = (vs.filterMap param?).length := by
  have hlen := h.length_eq
  rw [List.length_append, List.length_singleton] at hlen
  rcases List.eq_nil_or_concat' ps with rfl | ⟨qs, t, rfl⟩
  · exact nomatch hlen
  · have hl : vs.length = qs.length := by simpa using hlen
    exact ⟨captures vs qs, t, captures_append hl _ _, length_captures hl⟩

theorem Batch.slashAdded (b : Batch H) (decode : Bool) (hr : r.getLast? ≠ some '/') :
    Option.Rel
      (fun xs ys => handlers xs = handlers ys ∧
        SlashAdded (Segment.visible b.segments).getLast? xs ys)
      ((b.entry.pattern.captures? r).map (Endpoint.deal decode b.entry.endpoints))
      ((b.entry.pattern.captures? (if b.entry.pattern.closesWithStar then r ++ ['/'] else r)).map
        (Endpoint.deal decode b.entry.endpoints)) := by
  have hstar : b.entry.pattern.closesWithStar = _ := Pattern.closesWithStar_ofSegments b.segments
  cases hl : (Segment.visible b.segments).getLast?.any Segment.isStar with
  | false =>
    rw [hstar, hl, if_neg (by simp)]
    cases (b.entry.pattern.captures? r).map (Endpoint.deal decode b.entry.endpoints) with
    | none => exact .none
    | some xs => exact .some ⟨rfl, .refl hl xs⟩
  | true =>
    obtain ⟨vs, name, hv⟩ := Segment.exists_of_any_isStar hl
    have hparams : b.entry.endpoints.flatMap Endpoint.params =
        vs.filterMap Segment.param? ++ [⟨name, false⟩] := by
      refine b.flatMap_params_endpoints.trans ?_
      rw [hv, List.filterMap_append]
      rfl
    rw [hstar, hl, if_pos rfl, Batch.entry, Batch.pattern, Pattern.captures?_append_slash hv hr]
    cases hts : (Pattern.ofSegments b.segments).captures? r with
    | none => exact .none
    | some ts =>
      obtain ⟨ps, hps, -, rfl⟩ := Segment.reads_ofSegments.1 (Pattern.reads_of_captures? hts)
      rw [hv] at hps ⊢
      obtain ⟨us, t, hu, hlen⟩ := Segment.exists_captures_star hps
      rw [hu, Option.map_some, Option.map_some, Option.map_some, Pattern.closeLast_append_singleton,
        List.getLast?_concat]
      refine .some ⟨?_, Endpoint.slashedLast_deal hparams hlen.symm⟩
      rw [Endpoint.handlers_deal, Endpoint.handlers_deal]

namespace Router

variable {k : Compiler} {c : Config} {n : Normalizer}

/-- A slash behind an address changes neither whether it resolves nor the batch that wins. All hits stay
the same, but where the last segment of that batch is a star its value gets the slash. -/
theorem resolve_append_slash (xs : List (Registration H))
    (h : c.encodeSegments = true → n = .percent ∨ n = .identity) (hp : p ≠ [])
    (hm : '?' ∉ p ∧ '#' ∉ p) (hs : p.getLast? ≠ some '/') :
    Option.Rel
      (fun x y => x.query = y.query ∧ handlers x.hits = handlers y.hits ∧
        ∃ b ∈ inForce k n xs, (run k c n xs).select (workingPath c n p) = some b.entry ∧
          (run k c n xs).select (workingPath c n (p ++ ['/'])) = some b.entry ∧
          SlashAdded (Segment.visible b.segments).getLast? x.hits y.hits)
      ((run k c n xs).resolve p) ((run k c n xs).resolve (p ++ ['/'])) := by
  obtain ⟨m, r, hf, h0, hr, hx, hy⟩ :=
    exists_formsOf (fun hc => Normalizer.faithful_of_eq (h hc)) hp hm hs
  obtain ⟨hw, htext⟩ := PathForms.forms_append_slash (H := H) hf h0 hr
  have hwork : workingPath c n (p ++ ['/']) = workingPath c n p := by
    rw [← walked_formsOf, ← walked_formsOf, hx, hy, hw]
  have hquery : (splitAddress (p ++ ['/'])).2 = (splitAddress p).2 := by
    rw [splitAddress_of_not_mem hm, splitAddress_of_not_mem (by simp [hm.1, hm.2])]
  rw [resolve_run, resolve_run, hwork, hquery]
  cases hsel : (run k c n xs).select (workingPath c n p) with
  | none => exact .none
  | some e =>
    obtain ⟨⟨b, hb, rfl⟩, -⟩ := of_select k c n xs _ hsel
    have hrel := b.slashAdded c.encodeSegments hr
    obtain ⟨ht, hu⟩ := htext b.entry
    rw [Option.bind_some, Option.bind_some, Entry.hits?_eq, Entry.hits?_eq, hx, hy, ht, hu]
    generalize (b.entry.pattern.captures? r).map _ = xs at hrel ⊢
    generalize Option.map _ _ = ys at hrel ⊢
    cases hrel with
    | none => exact .none
    | some hrel => exact .some ⟨rfl, hrel.1, b, (mem_candidates.1 hb).1, rfl, rfl, hrel.2⟩

/-- The added slash does not serve as the one in front of the last star. -/
theorem resolve_append_slash_stars : ∃ x y,
    (run .lenient {} .percent [⟨[(['*', 'r', '/', 'a', '/', '*', 's'], 0)], none⟩]).resolve
        ['/', 'x', '/', 'a', '/', 'y', '/', 'a'] = some x ∧
      (run .lenient {} .percent [⟨[(['*', 'r', '/', 'a', '/', '*', 's'], 0)], none⟩]).resolve
        ['/', 'x', '/', 'a', '/', 'y', '/', 'a', '/'] = some y ∧
      SlashedLast ['s'] x.hits y.hits := by
  refine ⟨_, _, rfl, rfl, ?_⟩
  have h := @resolve_append_slash Nat ['/', 'x', '/', 'a', '/', 'y', '/', 'a'] .lenient {} .percent
    [⟨[(['*', 'r', '/', 'a', '/', '*', 's'], 0)], none⟩] (fun _ => .inl rfl) (by simp) (by decide)
    (by decide)
  obtain ⟨-, -, b, hb, -, -, hslash⟩ := Option.rel_some_some.1 h
  obtain rfl := eq_of_mem_inForce_singleton hb
  exact hslash

end Router
end Routing
