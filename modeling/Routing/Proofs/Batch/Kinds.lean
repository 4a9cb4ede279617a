import Routing.Proofs.Batch.Lifting
import Mathlib.Tactic

/-! The kinds of segments and the specificity that they add up to. Without a star, two routes of one
specificity that describe the same text have the same word, and of two routes without empty pieces the
more specific one is static where the other one is dynamic, at the first place where they differ. -/

namespace Routing

namespace Segment

def SameKind : Segment → Segment → Prop
  | static _, static _ => True
  | dynamic _, dynamic _ => True
  | star _, star _ => True
  | epsilon, epsilon => True
  | _, _ => False

/-- At the first place where the kinds differ, the first list has a static segment and the second
one a dynamic segment. -/
inductive Prevails : List Segment → List Segment → Prop where
  | here {text name ss ts} : Prevails (static text :: ss) (dynamic name :: ts)
  | cons {s t ss ts} : SameKind s t → Prevails ss ts → Prevails (s :: ss) (t :: ts)

variable {s t : Segment} {ss ts : List Segment} {p x : Text}

theorem sameKind_iff_digit_eq : SameKind s t ↔ s.digit = t.digit := by
  cases s <;> cases t <;> simp [SameKind, digit]

theorem SameKind.isEpsilon_eq (h : SameKind s t) : s.isEpsilon = t.isEpsilon := by
  cases s <;> cases t <;> first | rfl | exact h.elim

theorem SameKind.classes_eq (h : SameKind s t) (hs : s.Covers p) (ht : t.Covers p) :
    s.classes = t.classes := by
  cases s with
  | static text =>
    cases t with
    | static text' => exact congrArg (List.map _) (hs.symm.trans ht)
    | dynamic name | star name | epsilon => exact h.elim
  | dynamic name | star name | epsilon => cases t <;> first | rfl | exact h.elim

theorem forall₂_sameKind (h : ss.map digit = ts.map digit) : List.Forall₂ SameKind ss ts := by
  rw [← List.forall₂_eq_eq_eq, List.forall₂_map_left_iff, List.forall₂_map_right_iff] at h
  exact h.imp fun _ _ => sameKind_iff_digit_eq.2

theorem forall₂_visible (h : List.Forall₂ SameKind ss ts) :
    List.Forall₂ SameKind (visible ss) (visible ts) := by
  induction h with
  | nil => exact .nil
  | @cons s t ss ts hst _ ih =>
    have he := hst.isEpsilon_eq
    cases hs : s.isEpsilon with
    | false => simpa [visible, hs, ← he] using And.intro hst ih
    | true => simpa [visible, hs, ← he] using ih

theorem map_classes_eq {ps : List Text} (h : List.Forall₂ SameKind ss ts)
    (hs : List.Forall₂ Covers ss ps) (ht : List.Forall₂ Covers ts ps) :
    ss.map classes = ts.map classes := by
  induction h generalizing ps with
  | nil => rfl
  | cons hst _ ih =>
    obtain ⟨p, ps, hp, hps, rfl⟩ := List.forall₂_cons_left_iff.1 hs
    obtain ⟨hq, hqs⟩ := List.forall₂_cons.1 ht
    rw [List.map_cons, List.map_cons, hst.classes_eq hp hq, ih hps hqs]

theorem word_congr (h : (visible ss).map classes = (visible ts).map classes) : word ss = word ts := by
  have hl : (visible ss).isEmpty = (visible ts).isEmpty := by
    rw [← List.isEmpty_map (f := classes), h, List.isEmpty_map]
  have hf : ∀ ss : List Segment, (ss.flatMap fun s => CharClass.exactly '/' :: s.classes) =
      (ss.map classes).flatMap (CharClass.exactly '/' :: ·) := fun ss => by rw [List.flatMap_map]
  rw [word, word, hl, hf, hf, h]

variable {n : Normalizer}

structure Plain (n : Normalizer) (ss : List Segment) : Prop where
  normal : ∀ s ∈ ss, s.Normal n
  isStar : ∀ s ∈ ss, s.isStar = false

theorem Plain.exists_pieces (h : n.Faithful) (hs : Plain n ss) (hd : Describes (word ss) x) :
    ∃ ps, List.Forall₂ Covers (visible ss) ps ∧ x = pathOf ps ∧ ∀ p ∈ ps, '/' ∉ p := by
  obtain ⟨ps, hps, rfl⟩ := describes_word.1 hd
  exact ⟨ps, hps, rfl,
    slash_not_mem_of_visible h hs.normal hs.isStar (hps.imp fun _ _ => reads_of_covers)⟩

/-- Segments of the same kinds that describe the same text have the same word. -/
theorem Plain.word_eq (h : n.Faithful) (hs : Plain n ss) (ht : Plain n ts)
    (hk : ss.map digit = ts.map digit) (hd : Describes (word ss) x) (hd' : Describes (word ts) x) :
    word ss = word ts := by
  obtain ⟨ps, hps, rfl, free⟩ := hs.exists_pieces h hd
  obtain ⟨qs, hqs, he, free'⟩ := ht.exists_pieces h hd'
  have hk := forall₂_visible (forall₂_sameKind hk)
  have hl : ps.length = qs.length := by
    rw [← hps.length_eq, ← hqs.length_eq, hk.length_eq]
  obtain rfl : ps = qs :=
    pathOf_injective hl (fun p hp => free p (List.mem_of_mem_dropLast hp))
      (fun q hq => free' q (List.mem_of_mem_dropLast hq)) he
  exact word_congr (map_classes_eq hk hps hqs)

theorem visible_eq_self (h : .epsilon ∉ ss) : visible ss = ss := by
  rw [visible, List.filter_eq_self]
  intro s hs
  cases s with
  | epsilon => exact absurd hs h
  | static text => rfl
  | dynamic name => rfl
  | star name => rfl

theorem Plain.length_eq_count (h : n.Faithful) (hs : Plain n ss) (he : .epsilon ∉ ss) (h0 : ss ≠ [])
    (hd : Describes (word ss) x) : ss.length = x.count '/' := by
  obtain ⟨ps, hps, rfl, free⟩ := hs.exists_pieces h hd
  rw [visible_eq_self he] at hps
  rw [count_slash_pathOf _ free, hps.length_eq]
  rintro rfl
  exact h0 (List.forall₂_nil_right_iff.1 hps)

theorem eq_static_of_digit_lt (hs : t.isStar = false) (he : t.isEpsilon = false)
    (h : t.digit < s.digit) : (∃ text, s = static text) ∧ ∃ name, t = dynamic name := by
  cases t with
  | star name => exact nomatch hs
  | epsilon => exact nomatch he
  | static text => cases s <;> simp [digit] at h
  | dynamic name =>
    cases s with
    | static text => exact ⟨⟨text, rfl⟩, name, rfl⟩
    | dynamic name | star name | epsilon => simp [digit] at h

theorem prevails_of_lt (ht : ∀ t ∈ ts, t.isStar = false ∧ t.isEpsilon = false)
    (hl : ss.length = ts.length) (h : compare (ts.map digit) (ss.map digit) = .lt) :
    Prevails ss ts := by
  induction ss generalizing ts with
  | nil =>
    rw [List.length_eq_zero_iff.1 hl.symm] at h
    exact nomatch h
  | cons s ss ih =>
    obtain ⟨t, ts, rfl⟩ := List.exists_cons_of_length_eq_add_one hl.symm
    rw [List.forall_mem_cons] at ht
    rw [List.map_cons, List.map_cons, List.compare_cons_cons, Ordering.then_eq_lt] at h
    rcases h with hlt | ⟨heq, hlt⟩
    · rw [Nat.compare_eq_lt] at hlt
      obtain ⟨⟨text, rfl⟩, name, rfl⟩ := eq_static_of_digit_lt ht.1.1 ht.1.2 hlt
      exact .here
    · rw [Nat.compare_eq_eq] at heq
      exact .cons (sameKind_iff_digit_eq.2 heq.symm) (ih ht.2 (Nat.succ.inj hl) hlt)

end Segment
end Routing
