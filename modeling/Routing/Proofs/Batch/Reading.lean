import Routing.Proofs.Batch.Pieces
import Routing.Proofs.Pattern.Literal

/-! The pattern of a batch, read segment by segment: like its word, but static texts are read in
all their spellings, and the pieces of parameters are captured. -/

namespace Routing

namespace Segment

/-- The pieces that a segment stands for in the form that captures are read from. -/
def Reads : Segment → Text → Prop
  | static text, p => Pattern.Reads (Pattern.literal text) p []
  | dynamic _, p => p ≠ [] ∧ '/' ∉ p
  | star _, p => p ≠ []
  | epsilon, p => p = []

def captured (s : Segment) (p : Text) : List Text := if s.param?.isSome then [p] else []

def captures (ss : List Segment) (ps : List Text) : List Text :=
  (List.zipWith captured ss ps).flatten

theorem captures_cons (s : Segment) (ss : List Segment) (p : Text) (ps : List Text) :
    captures (s :: ss) (p :: ps) = s.captured p ++ captures ss ps := rfl

theorem forall₂_captures_iff {R : Param → Text → Prop} {ss : List Segment} {ps : List Text}
    (h : ss.length = ps.length) : List.Forall₂ R (ss.filterMap param?) (captures ss ps) ↔
      List.Forall₂ (fun s p => ∀ q ∈ s.param?, R q p) ss ps := by
  induction ss generalizing ps with
  | nil =>
    obtain rfl := List.length_eq_zero_iff.1 h.symm
    simp [captures]
  | cons s ss ih =>
    obtain ⟨p, ps, rfl⟩ := List.exists_cons_of_length_eq_add_one h.symm
    rw [List.filterMap_cons, captures_cons, captured, List.forall₂_cons, ← ih (Nat.succ.inj h)]
    cases s.param? <;> simp

theorem filterMap_param?_visible (ss : List Segment) :
    (visible ss).filterMap param? = ss.filterMap param? := by
  rw [visible, List.filterMap_filter]
  apply List.filterMap_congr
  intro s _
  cases s <;> rfl

theorem reads_of_covers {s : Segment} {p : Text} (h : s.Covers p) : s.Reads p := by
  cases s with
  | static text =>
    obtain rfl : p = text := h
    exact Pattern.reads_literal_self p
  | dynamic name => exact h
  | star name => exact h
  | epsilon => exact h

theorem reads_ofSegment {s : Segment} {p : Text} {ts : List Text} :
    Pattern.Reads (Pattern.ofSegment s) p ts ↔ s.Reads p ∧ ts = s.captured p := by
  cases s with
  | static text =>
    refine ⟨fun h => ?_, ?_⟩
    · obtain rfl := Pattern.eq_nil_of_reads_literal h
      exact ⟨h, rfl⟩
    · intro hx
      obtain ⟨h, rfl⟩ := hx
      exact h
  | dynamic name => exact Pattern.Reads.singleton_iff
  | star name => exact Pattern.Reads.singleton_iff
  | epsilon => exact Pattern.Reads.nil_iff

theorem reads_flatMap {ss : List Segment} {x : Text} {ts : List Text} :
    Pattern.Reads (ss.flatMap fun s => .slash :: Pattern.ofSegment s) x ts ↔
      ∃ ps, List.Forall₂ Reads ss ps ∧ x = ps.flatMap ('/' :: ·) ∧ ts = captures ss ps := by
  induction ss generalizing x ts with
  | nil =>
    rw [List.flatMap_nil, Pattern.Reads.nil_iff]
    simp [captures]
  | cons s ss ih =>
    rw [List.flatMap_cons, List.cons_append, Pattern.Reads.cons_iff]
    simp only [Pattern.reads_slash, Pattern.Reads.append_iff, reads_ofSegment, ih]
    refine ⟨?_, ?_⟩
    · intro h
      obtain ⟨-, -, -, rfl, ⟨p, -, -, -, ⟨hp, rfl⟩, ⟨ps, hps, rfl, rfl⟩, rfl, rfl⟩, rfl, rfl⟩ := h
      exact ⟨p :: ps, .cons hp hps, by simp, rfl⟩
    · intro h
      obtain ⟨qs, hqs, rfl, rfl⟩ := h
      obtain ⟨p, ps, hp, hps, rfl⟩ := List.forall₂_cons_left_iff.1 hqs
      exact ⟨['/'], _, _, rfl, ⟨p, _, _, _, ⟨hp, rfl⟩, ⟨ps, hps, rfl, rfl⟩, rfl, rfl⟩, by simp, rfl⟩

theorem reads_ofSegments {ss : List Segment} {x : Text} {ts : List Text} :
    Pattern.Reads (Pattern.ofSegments ss).items x ts ↔
      ∃ ps, List.Forall₂ Reads (visible ss) ps ∧ x = pathOf ps ∧ ts = captures (visible ss) ps := by
  unfold Pattern.ofSegments
  split_ifs with h
  · rw [List.isEmpty_iff.1 h, Pattern.Reads.singleton_iff, Pattern.reads_slash]
    simp [captures, Pattern.Item.captured]
  · rw [reads_flatMap]
    refine exists_congr fun ps => and_congr_right fun hps => ?_
    rw [pathOf_of_ne_nil]
    rintro rfl
    simp [List.forall₂_nil_right_iff.1 hps] at h

end Segment

namespace Pattern

/-- Between its anchors the notation of a pattern is the path whose pieces are the notations of the
visible segments. -/
theorem source_ofSegments (ss : List Segment) :
    (ofSegments ss).source = '^' :: pathOf ((Segment.visible ss).map sourceOf) ++ ['$'] := by
  rw [source, ofSegments, pathOf, List.isEmpty_map]
  split_ifs
  · rfl
  · rw [List.flatMap_assoc, List.flatMap_map]
    rfl

def Item.classes : Item → List CharClass
  | slash => [.exactly '/']
  | char c => [.exactly c]
  | escape h l => [.exactly '%', .exactly h, .exactly l]
  | segment => [.deny ['/']]
  | rest => [.deny []]

def word (p : Pattern) : List CharClass := p.items.flatMap Item.classes

theorem flatMap_classes_literal (s : Text) : (literal s).flatMap Item.classes = s.map .exactly := by
  fun_induction literal s with
  | case1 a b s _ ih => rw [List.flatMap_cons, ih]; rfl
  | case2 a b s _ ih => rw [List.flatMap_cons, ih]; rfl
  | case3 c s _ ih => rw [List.flatMap_cons, ih]; rfl
  | case4 => rfl

theorem flatMap_classes_ofSegment (s : Segment) :
    (ofSegment s).flatMap Item.classes = s.classes := by
  cases s with
  | static text => exact flatMap_classes_literal text
  | dynamic name => rfl
  | star name => rfl
  | epsilon => rfl

/-- A pattern still shows the word of the segments that it was made of. -/
theorem word_ofSegments (ss : List Segment) : (ofSegments ss).word = Segment.word ss := by
  unfold word ofSegments Segment.word
  split_ifs
  · rfl
  · rw [List.flatMap_assoc]
    congr 1
    funext s
    rw [List.flatMap_cons, flatMap_classes_ofSegment]
    rfl

end Pattern

namespace Batch

variable {H : Type} (b : Batch H)

theorem word_entry : b.entry.pattern.word = b.word := Pattern.word_ofSegments _

theorem params_eq : b.params = b.endpoints.flatMap Endpoint.params := by
  rw [endpoints, List.flatMap_map]
  rfl

theorem params_eq_filterMap : b.params = b.segments.filterMap Segment.param? := by
  rw [params, segments, List.filterMap_flatMap]
  rfl

theorem flatMap_params_endpoints :
    b.endpoints.flatMap Endpoint.params = (Segment.visible b.segments).filterMap Segment.param? := by
  rw [← params_eq, params_eq_filterMap, Segment.filterMap_param?_visible]

end Batch

end Routing
