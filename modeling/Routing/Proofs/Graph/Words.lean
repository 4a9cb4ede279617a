import Routing.Graph.Basic
import Mathlib.Data.List.Chain
import Mathlib.Tactic

/-! Words of character classes and the texts they describe. A text belongs to a word when it falls
into one piece for each class: a single admitted character, or one or more where the class
repeats. -/

namespace Routing

namespace CharClass

/-- The pieces that one occurrence of a class stands for. -/
structure Covers (k : CharClass) (p : Text) : Prop where
  ne_nil : p ≠ []
  admits : ∀ c ∈ p, k.admits c
  single : k.repeats = false → p.length = 1

theorem covers_exactly {c : Char} {p : Text} : (exactly c).Covers p ↔ p = [c] := by
  constructor
  · intro h
    obtain ⟨-, ha, hs⟩ := h
    obtain ⟨d, rfl⟩ := List.length_eq_one_iff.1 (hs rfl)
    simpa [exactly, CharClass.admits] using ha d (by simp)
  · rintro rfl
    exact ⟨by simp, by simp [exactly, CharClass.admits], fun _ => rfl⟩

theorem covers_deny {cs p : List Char} : (deny cs).Covers p ↔ p ≠ [] ∧ ∀ c ∈ p, c ∉ cs := by
  constructor
  · intro h
    obtain ⟨hn, ha, -⟩ := h
    exact ⟨hn, by simpa [CharClass.admits] using ha⟩
  · intro h
    obtain ⟨hn, ha⟩ := h
    exact ⟨hn, by simpa [CharClass.admits] using ha, by simp [CharClass.repeats]⟩

theorem covers_singleton {k : CharClass} {c : Char} : k.Covers [c] ↔ k.admits c :=
  ⟨fun h => h.admits c (by simp), fun h => ⟨by simp, by simpa using h, fun _ => rfl⟩⟩

theorem covers_cons_cons {k : CharClass} {c d : Char} {p : Text} :
    k.Covers (c :: d :: p) ↔ k.admits c ∧ k.repeats ∧ k.Covers (d :: p) := by
  constructor
  · intro hx
    obtain ⟨-, ha, hs⟩ := hx
    have hr : k.repeats = true := by
      by_contra h
      simpa using hs (by simpa using h)
    exact ⟨ha c (by simp), hr, ⟨by simp, fun e he => ha e (by simp [he]), by simp [hr]⟩⟩
  · intro hx
    obtain ⟨hc, hr, h⟩ := hx
    exact ⟨by simp, by simpa [hc] using h.admits, by simp [hr]⟩

theorem covers_append_singleton {k : CharClass} {c : Char} {p : Text} (hp : p ≠ []) :
    k.Covers (p ++ [c]) ↔ k.admits c ∧ k.repeats ∧ k.Covers p := by
  constructor
  · intro hx
    obtain ⟨-, ha, hs⟩ := hx
    have hr : k.repeats = true := by
      by_contra h
      have := hs (by simpa using h)
      simp [hp] at this
    exact ⟨ha c (by simp), hr, hp, fun e he => ha e (by simp [he]), by simp [hr]⟩
  · intro hx
    obtain ⟨hc, hr, h⟩ := hx
    refine ⟨by simp, ?_, by simp [hr]⟩
    intro e he
    rcases List.mem_append.1 he with he | he
    · exact h.admits e he
    · simpa [List.mem_singleton.1 he] using hc

end CharClass

inductive Describes : List CharClass → Text → Prop where
  | nil : Describes [] []
  | cons {k w p s} : k.Covers p → Describes w s → Describes (k :: w) (p ++ s)

namespace Describes

theorem nil_iff {s : Text} : Describes [] s ↔ s = [] :=
  ⟨fun h => by cases h; rfl, fun h => h ▸ .nil⟩

theorem cons_iff {k : CharClass} {w : List CharClass} {s : Text} :
    Describes (k :: w) s ↔ ∃ p t, k.Covers p ∧ Describes w t ∧ s = p ++ t := by
  constructor
  · rintro (_ | ⟨hp, ht⟩)
    exact ⟨_, _, hp, ht, rfl⟩
  · intro h
    obtain ⟨p, t, hp, ht, rfl⟩ := h
    exact .cons hp ht

theorem append_iff {u w : List CharClass} {s : Text} :
    Describes (u ++ w) s ↔ ∃ a b, Describes u a ∧ Describes w b ∧ s = a ++ b := by
  induction u generalizing s with
  | nil => simp [nil_iff]
  | cons k u ih =>
    simp only [List.cons_append, cons_iff, ih]
    constructor
    · intro h
      obtain ⟨p, t, hp, ⟨a, b, ha, hb, rfl⟩, rfl⟩ := h
      exact ⟨p ++ a, b, ⟨p, a, hp, ha, rfl⟩, hb, by simp⟩
    · intro h
      obtain ⟨-, b, ⟨p, a, hp, ha, rfl⟩, hb, rfl⟩ := h
      exact ⟨p, a ++ b, hp, ⟨a, b, ha, hb, rfl⟩, by simp⟩

theorem singleton_iff {k : CharClass} {s : Text} : Describes [k] s ↔ k.Covers s := by
  simp [cons_iff, nil_iff]

theorem map_exactly_iff {t s : Text} : Describes (t.map .exactly) s ↔ s = t := by
  induction t generalizing s with
  | nil => exact nil_iff
  | cons c t ih => simp [cons_iff, ih, CharClass.covers_exactly]

theorem cons_cons_iff {k : CharClass} {w : List CharClass} {c : Char} {s : Text} :
    Describes (k :: w) (c :: s) ↔
      k.admits c ∧ (Describes w s ∨ k.repeats ∧ Describes (k :: w) s) := by
  constructor
  · intro h
    obtain ⟨p, t, hp, ht, hs⟩ := cons_iff.1 h
    match p with
    | [] => exact absurd rfl hp.ne_nil
    | [d] =>
      obtain ⟨rfl, rfl⟩ : c = d ∧ s = t := by simpa using hs
      exact ⟨CharClass.covers_singleton.1 hp, .inl ht⟩
    | d :: e :: p =>
      obtain ⟨rfl, rfl⟩ : c = d ∧ s = e :: p ++ t := by simpa using hs
      obtain ⟨hc, hr, hp⟩ := CharClass.covers_cons_cons.1 hp
      exact ⟨hc, .inr ⟨hr, .cons hp ht⟩⟩
  · intro hx
    obtain ⟨hc, h | ⟨hr, h⟩⟩ := hx
    · exact .cons (p := [c]) (CharClass.covers_singleton.2 hc) h
    · obtain ⟨p, t, hp, ht, rfl⟩ := cons_iff.1 h
      match p with
      | [] => exact absurd rfl hp.ne_nil
      | d :: p => exact .cons (p := c :: d :: p) (CharClass.covers_cons_cons.2 ⟨hc, hr, hp⟩) ht

theorem append_singleton_iff {k : CharClass} {w : List CharClass} {c : Char} {s : Text} :
    Describes (w ++ [k]) (s ++ [c]) ↔
      k.admits c ∧ (Describes w s ∨ k.repeats ∧ Describes (w ++ [k]) s) := by
  simp only [append_iff, singleton_iff]
  constructor
  · intro hx
    obtain ⟨a, p, ha, hp, hs⟩ := hx
    obtain ⟨q, d, rfl⟩ := (List.eq_nil_or_concat' p).resolve_left hp.ne_nil
    obtain ⟨rfl, rfl⟩ : s = a ++ q ∧ c = d := by
      rw [← List.append_assoc] at hs
      simpa using List.append_inj' hs rfl
    by_cases hq : q = []
    · subst hq
      exact ⟨CharClass.covers_singleton.1 hp, .inl (by simpa using ha)⟩
    · obtain ⟨hc, hr, hq⟩ := (CharClass.covers_append_singleton hq).1 hp
      exact ⟨hc, .inr ⟨hr, a, q, ha, hq, rfl⟩⟩
  · intro hx
    obtain ⟨hc, h | ⟨hr, a, q, ha, hq, rfl⟩⟩ := hx
    · exact ⟨s, [c], h, CharClass.covers_singleton.2 hc, rfl⟩
    · exact ⟨a, q ++ [c], ha, (CharClass.covers_append_singleton hq.ne_nil).2 ⟨hc, hr, hq⟩, by simp⟩

theorem not_append_singleton_nil {k : CharClass} {w : List CharClass} : ¬ Describes (w ++ [k]) [] := by
  rw [append_iff]
  intro h
  obtain ⟨a, p, -, hp, hs⟩ := h
  exact (singleton_iff.1 hp).ne_nil (by simp_all)

end Describes

def describes : List CharClass → Text → Bool
  | [], s => s.isEmpty
  | _ :: _, [] => false
  | k :: w, c :: s => k.admits c && (describes w s || (k.repeats && describes (k :: w) s))

theorem describes_iff {w : List CharClass} {s : Text} : describes w s ↔ Describes w s := by
  induction s generalizing w with
  | nil =>
    cases w with
    | nil => simp [describes, Describes.nil_iff]
    | cons k w =>
      simp only [describes, Bool.false_eq_true, false_iff, Describes.cons_iff]
      intro h
      obtain ⟨p, t, hp, -, hs⟩ := h
      exact hp.ne_nil (by simp_all)
  | cons c s ih =>
    cases w with
    | nil => simp [describes, Describes.nil_iff]
    | cons k w => simp [describes, Describes.cons_cons_iff, ih]

instance (w : List CharClass) (s : Text) : Decidable (Describes w s) :=
  decidable_of_iff _ describes_iff

/-- Words in which no repeating class comes twice in a row. For these, to go on in a state that
repeats and to enter it again are not confused. -/
def Proper (w : List CharClass) : Prop := w.IsChain fun a b => a.repeats → a ≠ b

end Routing
