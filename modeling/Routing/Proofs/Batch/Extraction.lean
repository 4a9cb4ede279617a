import Routing.Proofs.Batch.Ending
import Routing.Proofs.Router.Hits

/-! What the routes of a batch get out of a path that its pattern reads: one piece for each visible
segment, and for each route a hit with the values of its own pieces. -/

namespace Routing

variable {H : Type}

namespace Segment

/-- The pieces of a path, as it was sent, that a segment stands for. -/
def Holds : Segment → Text → Prop
  | static text, p => '/' ∉ p ∧ Normalizer.percent.segment p = text
  | dynamic _, p => p ≠ [] ∧ '/' ∉ p
  | star _, p => p ≠ []
  | epsilon, p => p = []

def Decoded : Segment → Prop
  | static text => ∃ t, text = Normalizer.protect t
  | _ => True

def binding? : Segment → Text → Option (Text × Text)
  | static _, _ => none
  | dynamic name, p => some (name, Percent.decodeOrKeep p)
  | star name, p => some (name, p)
  | epsilon, _ => none

def bindings (ss : List Segment) (ps : List Text) : List (Text × Text) :=
  (ss.zip ps).filterMap fun x => x.1.binding? x.2

variable {s : Segment} {ss : List Segment} {p : Text} {ps : List Text}

theorem captures_append (h : ss.length = ps.length) (ts : List Segment) (qs : List Text) :
    captures (ss ++ ts) (ps ++ qs) = captures ss ps ++ captures ts qs := by
  rw [captures, List.zipWith_append h, List.flatten_append]
  rfl

theorem length_captures (h : ss.length = ps.length) :
    (captures ss ps).length = (ss.filterMap param?).length := by
  induction ss generalizing ps with
  | nil => rfl
  | cons s ss ih =>
    obtain ⟨p, ps, rfl⟩ := List.exists_cons_of_length_eq_add_one h.symm
    rw [captures_cons, List.length_append, ih (Nat.succ.inj h), List.filterMap_cons, captured]
    cases s.param? <;> simp [Nat.add_comm]

end Segment

theorem Batch.length_of_captures? {b : Batch H} {s : Text} {ts : List Text}
    (h : b.entry.pattern.captures? s = some ts) : ts.length = b.params.length := by
  obtain ⟨ps, hps, -, rfl⟩ := Segment.reads_ofSegments.1 (Pattern.reads_of_captures? h)
  rw [Segment.length_captures hps.length_eq, Segment.filterMap_param?_visible, params_eq_filterMap]

end Routing
