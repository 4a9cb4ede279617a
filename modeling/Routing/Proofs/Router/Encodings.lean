import Routing.Proofs.Router.Agreement
import Routing.Proofs.Router.Hits

/-! Resolution up to percent encoding. Addresses whose paths have one normal form are looked up
alike, and without a star their captures decode alike. -/

namespace Routing

open Percent (decodeOrKeep)

variable {H : Type}

namespace PathForms

theorem path_textOf {n : Normalizer} (h : n.Faithful) {p q : Text} (hpq : n.path p = n.path q)
    (e : Entry H) : n.path (e.textOf (ofPath n p)) = n.path (e.textOf (ofPath n q)) := by
  have hr : n.path (ofPath n p).read = n.path (ofPath n q).read := by
    rw [← (walked_ofPath h p).1, ← (walked_ofPath h q).1, ofPath, ofPath, walked_trim, walked_trim,
      hpq]
  have hd : (ofPath n p).slashDropped = (ofPath n q).slashDropped := by
    rw [ofPath, ofPath, slashDropped_trim, slashDropped_trim, hpq]
  unfold Entry.textOf
  rw [hd]
  split_ifs
  · rw [h.path_append, h.path_append, hr]
  · exact hr

end PathForms

theorem Batch.decode_of_mem_endpoints {b : Batch H} (hs : ∀ s ∈ b.segments, s.isStar = false) :
    ∀ e ∈ b.endpoints, ∀ p ∈ e.params, p.decode := by
  intro e he p hp
  obtain ⟨x, hx, rfl⟩ := List.mem_map.1 he
  obtain ⟨s, hm, hsp⟩ := List.mem_filterMap.1 hp
  have hs := hs s (List.mem_flatMap.2 ⟨x, hx, hm⟩)
  cases s with
  | static text => exact nomatch hsp
  | dynamic name =>
    obtain rfl := Option.some.inj hsp
    rfl
  | star name => exact nomatch hs
  | epsilon => exact nomatch hsp

theorem decodeOrKeep_of_path_eq {t u : Text} (ht : '/' ∉ t)
    (h : Normalizer.percent.path t = Normalizer.percent.path u) :
    decodeOrKeep t = decodeOrKeep u := by
  have hf := Normalizer.faithful_percent
  have hu : '/' ∉ u := by
    intro hm
    have := hf.slash_mem_path hm
    rw [← h, hf.path_of_not_mem ht] at this
    exact hf.slash_not_mem ht this
  rw [hf.path_of_not_mem ht, hf.path_of_not_mem hu] at h
  exact Normalizer.decodeOrKeep_congr ht hu h

namespace Router

/-- A batch without a star wins the working path. -/
def WonWithoutStar (k : Compiler) (c : Config) (n : Normalizer) (xs : List (Registration H))
    (w : Text) : Prop :=
  ∃ b ∈ inForce k n xs, (run k c n xs).select w = some b.entry ∧ ∀ s ∈ b.segments, s.isStar = false

variable {k : Compiler} {c : Config} {xs : List (Registration H)} {a₁ a₂ : Text}

/-- Addresses whose paths have one normal form resolve to the same handlers, and to the same hits
where the winning batch has no star. -/
theorem resolve_of_path_eq (hc : c.encodeSegments = true)
    (h : Normalizer.percent.path (rooted (splitAddress a₁).1) =
      Normalizer.percent.path (rooted (splitAddress a₂).1)) :
    Option.Rel
      (fun x y => handlers x.hits = handlers y.hits ∧
        (WonWithoutStar k c .percent xs (workingPath c .percent a₁) → x.hits = y.hits))
      ((run k c .percent xs).resolve a₁) ((run k c .percent xs).resolve a₂) := by
  have hf := Normalizer.faithful_percent
  have hw : workingPath c .percent a₂ = workingPath c .percent a₁ := by
    simp only [workingPath, hc, if_true, h]
  rw [resolve_run, resolve_run, hw]
  cases hs : (run k c .percent xs).select (workingPath c .percent a₁) with
  | none => exact .none
  | some e =>
    obtain ⟨⟨b, hb, rfl⟩, -⟩ := of_select k c .percent xs _ hs
    have h₁ := isSome_hits?_of_candidate (fun _ => hf) hb
    have h₂ := isSome_hits?_of_candidate (fun _ => hf) (hw ▸ hb)
    rw [Entry.hits?_eq, Option.isSome_map] at h₁ h₂
    obtain ⟨ts, ht⟩ := Option.isSome_iff_exists.1 h₁
    obtain ⟨us, hu⟩ := Option.isSome_iff_exists.1 h₂
    simp only [Option.bind_some, Entry.hits?_eq, ht, hu, Option.map_some]
    refine .some ⟨?_, ?_⟩
    · rw [Endpoint.handlers_deal, Endpoint.handlers_deal]
    · -- the batch without a star need not be the one found above, but it has the same entry
      intro hx
      obtain ⟨d, hd, he, hstar⟩ := hx
      have hp := PathForms.path_textOf hf h b.entry
      simp only [formsOf, hc, if_true] at ht hu
      rw [Option.some.inj (hs.symm.trans he)] at ht hu hp ⊢
      have hr := Segment.captures_of_path_eq hf (normal_of_mem_inForce hd) hstar hp
        (Pattern.reads_of_captures? ht) (Pattern.reads_of_captures? hu)
      rw [hc]
      apply Endpoint.deal_congr _ (Batch.decode_of_mem_endpoints hstar)
      exact hr.imp fun _ _ h => decodeOrKeep_of_path_eq h.1 h.2

/-- An escaped character and the character itself, in a static text and in a value. -/
theorem resolve_of_path_eq_escaped :
    ∃ x y, (run .lenient {} .percent [⟨[(['/', 'a', '/', ':', 'i'], 0)], none⟩]).resolve
        ['/', '%', '6', '1', '/', '%', 'c', '3', '%', 'a', '9'] = some x ∧
      (run .lenient {} .percent [⟨[(['/', 'a', '/', ':', 'i'], 0)], none⟩]).resolve
        ['/', 'a', '/', 'é', '?', 'q'] = some y ∧ x.hits = y.hits := by
  refine ⟨_, _, rfl, rfl, ?_⟩
  have h := @resolve_of_path_eq Nat .lenient {} [⟨[(['/', 'a', '/', ':', 'i'], 0)], none⟩]
    ['/', '%', '6', '1', '/', '%', 'c', '3', '%', 'a', '9'] ['/', 'a', '/', 'é', '?', 'q'] rfl
    (by decide +kernel)
  refine (Option.rel_some_some.1 h).2 ⟨[(⟨[.static ['a'], .dynamic ['i']]⟩, 0)], ?_, rfl, ?_⟩
  · decide +kernel
  · decide

end Router
end Routing
