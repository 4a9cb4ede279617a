import Routing.Batch
import Routing.Proofs.Graph.Words

/-! The word of a batch, read segment by segment: it describes the paths that consist of one piece
for each visible segment, each behind its slash. -/

namespace Routing

theorem exists_of_mem_forall₂ {α β : Type} {R : α → β → Prop} {l : List α} {m : List β} {b : β}
    (h : List.Forall₂ R l m) (hb : b ∈ m) : ∃ a ∈ l, R a b := by
  induction h with
  | nil => exact nomatch hb
  | @cons a b l m hab _ ih =>
    rcases List.mem_cons.1 hb with rfl | hb
    · exact ⟨a, List.mem_cons_self, hab⟩
    · obtain ⟨a', ha', hab'⟩ := ih hb
      exact ⟨a', List.mem_cons_of_mem _ ha', hab'⟩

theorem exists_forall₂ {α β : Type} {R : α → β → Prop} {l : List α} (h : ∀ a ∈ l, ∃ b, R a b) :
    ∃ m, List.Forall₂ R l m := by
  induction l with
  | nil => exact ⟨[], .nil⟩
  | cons a l ih =>
    rw [List.forall_mem_cons] at h
    obtain ⟨b, hb⟩ := h.1
    obtain ⟨m, hm⟩ := ih h.2
    exact ⟨b :: m, .cons hb hm⟩

theorem exists_of_forall₂_append {α β : Type} {R : α → β → Prop} {k l : List α} {m : List β}
    (h : List.Forall₂ R (k ++ l) m) :
    ∃ m₁ m₂, m = m₁ ++ m₂ ∧ List.Forall₂ R k m₁ ∧ List.Forall₂ R l m₂ := by
  have h1 := List.forall₂_take k.length h
  have h2 := List.forall₂_drop k.length h
  rw [List.take_left] at h1
  rw [List.drop_left] at h2
  exact ⟨_, _, (List.take_append_drop ..).symm, h1, h2⟩

theorem forall₂_append_singleton {α β : Type} {R : α → β → Prop} {l : List α} {m : List β} {b : β}
    (h : List.Forall₂ R l (m ++ [b])) : ∃ k a, l = k ++ [a] ∧ List.Forall₂ R k m ∧ R a b := by
  rw [← List.forall₂_reverse_iff, List.reverse_append, List.reverse_singleton,
    List.singleton_append, List.forall₂_cons_right_iff] at h
  obtain ⟨a, k, hab, hk, hl⟩ := h
  refine ⟨k.reverse, a, by rw [← List.reverse_reverse l, hl, List.reverse_cons], ?_, hab⟩
  rw [← List.forall₂_reverse_iff, List.reverse_reverse]
  exact hk

/-- The path with these pieces. Without pieces it is a single slash. -/
def pathOf (ps : List Text) : Text := if ps.isEmpty then ['/'] else ps.flatMap ('/' :: ·)

@[simp] theorem pathOf_nil : pathOf [] = ['/'] := rfl

theorem pathOf_of_ne_nil {ps : List Text} (h : ps ≠ []) : pathOf ps = ps.flatMap ('/' :: ·) := by
  simp [pathOf, h]

theorem pathOf_append_singleton (ps : List Text) (p : Text) :
    pathOf (ps ++ [p]) = ps.flatMap ('/' :: ·) ++ '/' :: p := by
  rw [pathOf_of_ne_nil (by simp), List.flatMap_append, List.flatMap_singleton]

theorem exists_of_pathOf_eq_append {ps : List Text} {a : Text} (h : pathOf ps = a ++ ['/'])
    (ha : a ≠ []) (h0 : ∀ p ∈ ps, p ≠ []) : ∃ qs q, ps = qs ++ [q ++ ['/']] := by
  rcases List.eq_nil_or_concat' ps with rfl | ⟨qs, p, rfl⟩
  · have h : [] ++ ['/'] = a ++ ['/'] := h
    exact absurd (List.append_cancel_right h).symm ha
  rcases List.eq_nil_or_concat' p with rfl | ⟨q, c, rfl⟩
  · exact absurd rfl (h0 [] (by simp))
  rw [pathOf_append_singleton, ← List.cons_append, ← List.append_assoc] at h
  obtain ⟨-, hc⟩ := List.append_inj' h rfl
  exact ⟨qs, q, by rw [hc]⟩

theorem mem_pathOf_iff {c : Char} {ps : List Text} (hc : c ≠ '/') :
    c ∈ pathOf ps ↔ ∃ p ∈ ps, c ∈ p := by
  by_cases h : ps = []
  · simp [h, hc]
  · simp [pathOf_of_ne_nil h, hc]

theorem count_slash_pathOf {ps : List Text} (hp : ps ≠ []) (h : ∀ p ∈ ps, '/' ∉ p) :
    (pathOf ps).count '/' = ps.length := by
  rw [pathOf_of_ne_nil hp]
  clear hp
  induction ps with
  | nil => rfl
  | cons p ps ih =>
    rw [List.forall_mem_cons] at h
    rw [List.flatMap_cons, List.count_append, List.count_cons_self, List.count_eq_zero.2 h.1, ih h.2,
      List.length_cons]
    omega

theorem cons_slash_intercalate {ps : List Text} (h : ps ≠ []) :
    '/' :: ['/'].intercalate ps = pathOf ps := by
  rw [pathOf_of_ne_nil h]
  induction ps with
  | nil => exact absurd rfl h
  | cons p ps ih =>
    by_cases hn : ps = []
    · subst hn
      simp
    · rw [List.intercalate_cons_of_ne_nil hn, List.flatMap_cons, ← ih hn]
      simp

theorem cons_slash_eq_pathOf (s : Text) : '/' :: s = pathOf (s.splitOn '/') := by
  rw [← cons_slash_intercalate (List.splitOn_ne_nil _ _), List.intercalate_splitOn]

theorem marks_not_mem_pathOf {ps : List Text} (h : ∀ p ∈ ps, '?' ∉ p ∧ '#' ∉ p) :
    '?' ∉ pathOf ps ∧ '#' ∉ pathOf ps := by
  rw [mem_pathOf_iff (by decide), mem_pathOf_iff (by decide)]
  refine ⟨fun hx => ?_, fun hx => ?_⟩
  · obtain ⟨p, hp, hm⟩ := hx
    exact (h p hp).1 hm
  · obtain ⟨p, hp, hm⟩ := hx
    exact (h p hp).2 hm

theorem append_slash_inj {p q u v : Text} (hp : '/' ∉ p) (hq : '/' ∉ q)
    (h : p ++ '/' :: u = q ++ '/' :: v) : p = q ∧ u = v := by
  have hc := congrArg (Text.cut '/') h
  rw [Text.cut_append_sep hp, Text.cut_append_sep hq, Prod.mk.injEq, Option.some.injEq] at hc
  exact hc

theorem flatMap_slash_injective {ps qs : List Text} (hl : ps.length = qs.length)
    (hp : ∀ p ∈ ps.dropLast, '/' ∉ p) (hq : ∀ q ∈ qs.dropLast, '/' ∉ q)
    (h : ps.flatMap ('/' :: ·) = qs.flatMap ('/' :: ·)) : ps = qs := by
  induction ps generalizing qs with
  | nil => exact (List.length_eq_zero_iff.1 hl.symm).symm
  | cons p ps ih =>
    obtain ⟨q, qs, rfl⟩ := List.exists_cons_of_length_eq_add_one hl.symm
    have hl : ps.length = qs.length := by simpa using hl
    simp only [List.flatMap_cons, List.cons_append, List.cons.injEq, true_and] at h
    cases ps with
    | nil =>
      obtain rfl := List.length_eq_zero_iff.1 hl.symm
      simpa using h
    | cons p' ps =>
      obtain ⟨q', qs, rfl⟩ := List.exists_cons_of_length_eq_add_one hl.symm
      rw [List.dropLast_cons_cons, List.forall_mem_cons] at hp hq
      rw [List.flatMap_cons, List.flatMap_cons, List.cons_append, List.cons_append] at h
      obtain ⟨hpq, hc⟩ := append_slash_inj hp.1 hq.1 h
      rw [hpq, ih hl hp.2 hq.2 (by simpa using hc)]

/-- A path has one cut into so many pieces when only the last of them may hold a slash. -/
theorem pathOf_injective {ps qs : List Text} (hl : ps.length = qs.length)
    (hp : ∀ p ∈ ps.dropLast, '/' ∉ p) (hq : ∀ q ∈ qs.dropLast, '/' ∉ q)
    (h : pathOf ps = pathOf qs) : ps = qs := by
  by_cases hn : ps = []
  · subst hn
    exact (List.length_eq_zero_iff.1 hl.symm).symm
  · have hm : qs ≠ [] := by
      rintro rfl
      exact hn (List.length_eq_zero_iff.1 hl)
    rw [pathOf_of_ne_nil hn, pathOf_of_ne_nil hm] at h
    exact flatMap_slash_injective hl hp hq h

namespace Segment

theorem forall_visible {P : Segment → Prop} {ss : List Segment} (h : ∀ s ∈ ss, P s) :
    ∀ s ∈ visible ss, P s :=
  fun s hm => h s (List.mem_filter.1 hm).1

/-- The pieces that a segment stands for in the form that is walked. -/
def Covers : Segment → Text → Prop
  | static text, p => p = text
  | dynamic _, p => p ≠ [] ∧ '/' ∉ p
  | star _, p => p ≠ []
  | epsilon, p => p = []

theorem describes_classes {s : Segment} {p : Text} : Describes s.classes p ↔ s.Covers p := by
  cases s with
  | static text => exact Describes.map_exactly_iff
  | dynamic name =>
    rw [classes, Describes.singleton_iff, CharClass.covers_deny]
    exact and_congr_right fun _ =>
      ⟨fun h hm => h _ hm (by simp), fun h c hc hs => h (List.mem_singleton.1 hs ▸ hc)⟩
  | star name =>
    rw [classes, Describes.singleton_iff, CharClass.covers_deny]
    simp [Covers]
  | epsilon => exact Describes.nil_iff

theorem describes_flatMap {ss : List Segment} {x : Text} :
    Describes (ss.flatMap fun s => .exactly '/' :: s.classes) x ↔
      ∃ ps, List.Forall₂ Covers ss ps ∧ x = ps.flatMap ('/' :: ·) := by
  induction ss generalizing x with
  | nil => simp [Describes.nil_iff]
  | cons s ss ih =>
    rw [List.flatMap_cons, List.cons_append, Describes.cons_iff]
    simp only [CharClass.covers_exactly, Describes.append_iff, describes_classes, ih]
    refine ⟨?_, ?_⟩
    · intro h
      obtain ⟨-, -, rfl, ⟨p, -, hp, ⟨ps, hps, rfl⟩, rfl⟩, rfl⟩ := h
      exact ⟨p :: ps, .cons hp hps, by simp⟩
    · intro h
      obtain ⟨qs, hqs, rfl⟩ := h
      obtain ⟨p, ps, hp, hps, rfl⟩ := List.forall₂_cons_left_iff.1 hqs
      exact ⟨['/'], _, rfl, ⟨p, _, hp, ⟨ps, hps, rfl⟩, rfl⟩, by simp⟩

theorem describes_word {ss : List Segment} {x : Text} :
    Describes (word ss) x ↔ ∃ ps, List.Forall₂ Covers (visible ss) ps ∧ x = pathOf ps := by
  unfold word
  split_ifs with h
  · rw [List.isEmpty_iff.1 h, Describes.singleton_iff, CharClass.covers_exactly]
    simp
  · rw [describes_flatMap]
    refine exists_congr fun ps => and_congr_right fun hps => ?_
    rw [pathOf_of_ne_nil]
    rintro rfl
    simp [List.forall₂_nil_right_iff.1 hps] at h

theorem proper_exactly_cons {c : Char} {w : List CharClass} (h : Proper w) :
    Proper (.exactly c :: w) :=
  List.isChain_cons.2 ⟨fun _ _ hr => absurd hr (by simp [CharClass.exactly, CharClass.repeats]), h⟩

theorem proper_deny_cons {cs : List Char} {w : List CharClass} (h : Proper w)
    (hw : ∀ k ∈ w.head?, k.repeats = false) : Proper (.deny cs :: w) := by
  refine List.isChain_cons.2 ⟨?_, h⟩
  rintro k hk - rfl
  exact absurd (hw _ hk) (by simp [CharClass.repeats])

theorem proper_classes_append (s : Segment) {w : List CharClass} (h : Proper w)
    (hw : ∀ k ∈ w.head?, k.repeats = false) : Proper (s.classes ++ w) := by
  cases s with
  | static text =>
    induction text with
    | nil => exact h
    | cons c text ih => exact proper_exactly_cons ih
  | dynamic name => exact proper_deny_cons h hw
  | star name => exact proper_deny_cons h hw
  | epsilon => exact h

theorem proper_word (ss : List Segment) : Proper (word ss) := by
  unfold word
  split_ifs
  · exact .singleton _
  · induction visible ss with
    | nil => exact .nil
    | cons s ss ih =>
      rw [List.flatMap_cons, List.cons_append]
      refine proper_exactly_cons (proper_classes_append s ih ?_)
      cases ss with
      | nil => simp
      | cons t ss => simp [CharClass.exactly, CharClass.repeats]

end Segment

theorem Batch.proper_word {H : Type} (b : Batch H) : Proper b.word := Segment.proper_word _

end Routing
