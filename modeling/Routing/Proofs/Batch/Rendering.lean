import Routing.NamedRoute
import Routing.Proofs.Batch.Lifting
import Routing.Proofs.Percent.Codec
import Routing.Proofs.Router.Hits

/-! Batches written as paths. Each visible segment is rendered as a piece that its word covers in
normal form, that its pattern reads, and from which its parameter takes the value again. -/

namespace Routing

open Percent (encodeSegment)

variable {H : Type} {d : Dict Text} {s : Segment} {ss : List Segment} {ps : List Text}

namespace Segment

/-- What a segment can be written with so that it is read back: every value is there and not empty,
that of a star is no single slash, and neither it nor a static text holds the mark of a query or of
a fragment. -/
def Writable (d : Dict Text) : Segment → Prop
  | static text => '?' ∉ text ∧ '#' ∉ text
  | dynamic name => ∃ v, d.find? name = some v ∧ v ≠ []
  | star name => ∃ v, d.find? name = some v ∧ v ≠ [] ∧ v ≠ ['/'] ∧ '?' ∉ v ∧ '#' ∉ v
  | epsilon => True

structure Rendered (d : Dict Text) (s : Segment) (p : Text) : Prop where
  render : s.render true d = some p
  covers : s.Covers (Normalizer.percent.path p)
  reads : s.Reads p
  returns : ∀ q ∈ s.param?, Endpoint.Returns true d q p
  isStar : '/' ∈ p → s.isStar
  ne_nil : p ≠ []
  ne_slash : p ≠ ['/']
  marks : '?' ∉ p ∧ '#' ∉ p

theorem rendered_static {text : Text} (hn : (static text).Normal .percent)
    (hw : (static text).Writable d) : (static text).Rendered d text := by
  have hf := Normalizer.faithful_percent
  obtain ⟨r, hr, hr0, rfl⟩ := hn
  have hs := hf.slash_not_mem hr
  refine ⟨rfl, ?_, Pattern.reads_literal_self _, ?_, fun h => absurd h hs, ?_, ?_, hw⟩
  · exact (hf.path_of_not_mem hs).trans (Normalizer.decodeSegment_idem hr)
  · simp [param?]
  · exact fun h => hr0 ((hf.eq_nil hr).1 h)
  · intro h
    exact hs (by simp [h])

theorem rendered_dynamic {name v : Text} (hv : d.find? name = some v) (h0 : v ≠ []) :
    (dynamic name).Rendered d (encodeSegment v) := by
  have hf := Normalizer.faithful_percent
  have hs := Percent.slash_not_mem_encodeSegment v
  have h0 := Percent.encodeSegment_ne_nil h0
  refine ⟨by simp [Segment.render, hv], ⟨?_, ?_⟩, ⟨h0, hs⟩, ?_, fun h => absurd h hs, h0, ?_, ?_, ?_⟩
  · exact fun h => h0 (hf.path_eq_nil.1 h)
  · rw [hf.path_of_not_mem hs]
    exact hf.slash_not_mem hs
  · intro q hq
    obtain rfl := Option.some.inj hq
    simp [Endpoint.Returns, Endpoint.value, hv, Percent.decodeOrKeep_encodeSegment]
  · intro h
    exact hs (by simp [h])
  · exact Percent.not_mem_encodeWith (by decide) (by decide) (by decide)
  · exact Percent.not_mem_encodeWith (by decide) (by decide) (by decide)

theorem rendered_star {name v : Text} (hv : d.find? name = some v) (h0 : v ≠ []) (h1 : v ≠ ['/'])
    (hm : '?' ∉ v ∧ '#' ∉ v) : (star name).Rendered d v := by
  refine ⟨hv, fun h => h0 (Normalizer.faithful_percent.path_eq_nil.1 h), h0, ?_, fun _ => rfl, h0,
    h1, hm⟩
  intro q hq
  obtain rfl := Option.some.inj hq
  simp [Endpoint.Returns, Endpoint.value, hv]

theorem exists_rendered (hn : s.Normal .percent) (hw : s.Writable d) (he : s.isEpsilon = false) :
    ∃ p, s.Rendered d p := by
  cases s with
  | static text => exact ⟨text, rendered_static hn hw⟩
  | dynamic name =>
    obtain ⟨v, hv, h0⟩ := hw
    exact ⟨_, rendered_dynamic hv h0⟩
  | star name =>
    obtain ⟨v, hv, h0, h1, hm⟩ := hw
    exact ⟨v, rendered_star hv h0 h1 hm⟩
  | epsilon => simp [isEpsilon] at he

theorem exists_forall₂_rendered (h : ∀ s ∈ ss, ∃ p, s.Rendered d p) :
    ∃ ps, List.Forall₂ (Rendered d) ss ps := exists_forall₂ h

end Segment

theorem mapM_writeSegment (name : Text) {encode : Bool}
    (h : List.Forall₂ (fun s p => s.render encode d = some p) ss ps) :
    ss.mapM (NamedRoute.writeSegment name encode d) = .ok (ps.map ('/' :: ·)) := by
  induction h with
  | nil => rfl
  | cons hp _ ih =>
    rw [List.mapM_cons, ih, NamedRoute.writeSegment, hp]
    rfl

theorem NamedRoute.path_eq_pathOf (r : NamedRoute H) (name : Text) {encode : Bool}
    (h : List.Forall₂ (fun s p => s.render encode d = some p) (Segment.visible r.segments) ps) :
    r.path name encode d = .ok (pathOf ps) := by
  rw [NamedRoute.path, mapM_writeSegment name h]
  cases ps <;> rfl

end Routing
