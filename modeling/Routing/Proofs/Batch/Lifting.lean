import Routing.Proofs.Batch.Reading
import Routing.Proofs.Normalizer.Paths

/-! From the form that is walked back to the form that captures are read from: when the word of a
batch describes the normal form of a path, the pattern of the batch reads the path. -/

namespace Routing

namespace Normalizer.Faithful

variable {n : Normalizer} {p r u : Text} {ps : List Text}

theorem path_append_pieces (h : n.Faithful) (p : Text) (ps : List Text) :
    n.path (p ++ ps.flatMap ('/' :: ·)) = n.path p ++ (ps.map n.path).flatMap ('/' :: ·) := by
  induction ps generalizing p with
  | nil => simp
  | cons q ps ih =>
    rw [List.flatMap_cons, List.cons_append, h.path_append, ih]
    simp

theorem path_pathOf (h : n.Faithful) (ps : List Text) :
    n.path (pathOf ps) = pathOf (ps.map n.path) := by
  by_cases hp : ps = []
  · subst hp
    have := h.path_append [] []
    rw [h.path_nil] at this
    exact this
  · rw [pathOf_of_ne_nil hp, pathOf_of_ne_nil (by simpa using hp)]
    have := h.path_append_pieces [] ps
    rw [h.path_nil] at this
    exact this

theorem exists_of_path_eq_pieces (h : n.Faithful)
    (hr : n.path r = u ++ ps.flatMap ('/' :: ·)) :
    ∃ (a : Text) (qs : List Text), r = a ++ qs.flatMap ('/' :: ·) ∧ n.path a = u ∧
      qs.map n.path = ps := by
  induction ps generalizing r u with
  | nil => exact ⟨r, [], by simp, by simpa using hr, rfl⟩
  | cons p ps ih =>
    obtain ⟨a, b, rfl, ha, hb⟩ := h.exists_of_path_eq_append hr
    obtain ⟨q, qs, rfl, hq, hqs⟩ := ih hb
    exact ⟨a, q :: qs, by simp, ha, by simp [hq, hqs]⟩

theorem exists_of_path_eq_pathOf (h : n.Faithful) (hr : n.path r = pathOf ps) :
    ∃ qs, r = pathOf qs ∧ qs.map n.path = ps := by
  by_cases hp : ps = []
  · subst hp
    obtain ⟨a, b, rfl, ha, hb⟩ := h.exists_of_path_eq_append (u := []) (v := []) hr
    rw [h.path_eq_nil.1 ha, h.path_eq_nil.1 hb]
    exact ⟨[], rfl, rfl⟩
  · rw [pathOf_of_ne_nil hp] at hr
    obtain ⟨a, qs, rfl, ha, rfl⟩ := h.exists_of_path_eq_pieces (u := []) hr
    rw [h.path_eq_nil.1 ha]
    exact ⟨qs, (pathOf_of_ne_nil (by simpa using hp)).symm, rfl⟩

theorem count_slash_path (h : n.Faithful) (p : Text) : (n.path p).count '/' = p.count '/' := by
  have hl : ∀ s : Text, ('/' :: s).count '/' = (s.splitOn '/').length := fun s => by
    rw [cons_slash_eq_pathOf, count_slash_pathOf (List.splitOn_ne_nil _ _) fun _ =>
      not_mem_of_mem_splitOn]
  have hp := hl (n.path p)
  rw [h.splitOn_path, List.length_map, ← hl p, List.count_cons_self, List.count_cons_self] at hp
  exact Nat.succ.inj hp

end Normalizer.Faithful

namespace Segment

variable {n : Normalizer} {s : Segment} {ss : List Segment} {q r x : Text} {ts : List Text}

/-- Static texts of patterns are normal forms of segments. -/
def Normal (n : Normalizer) : Segment → Prop
  | static text => ∃ p, '/' ∉ p ∧ p ≠ [] ∧ n.segment p = text
  | _ => True

theorem reads_of_covers_path (h : n.Faithful) (hs : s.Normal n) (hc : s.Covers (n.path q)) :
    s.Reads q := by
  cases s with
  | static text =>
    obtain ⟨p, hp, -, rfl⟩ := hs
    have hc : n.path q = n.segment p := hc
    have hq : '/' ∉ q := fun hm => h.slash_not_mem hp (hc ▸ h.slash_mem_path hm)
    rw [h.path_of_not_mem hq] at hc
    have hr := h.reads hq
    rwa [hc] at hr
  | dynamic name =>
    refine ⟨?_, fun hm => hc.2 (h.slash_mem_path hm)⟩
    rintro rfl
    exact hc.1 h.path_nil
  | star name =>
    rintro rfl
    exact hc h.path_nil
  | epsilon => exact h.path_eq_nil.1 hc

theorem exists_reads_of_forall₂ {ps : List Text} (h : List.Forall₂ Reads (visible ss) ps) :
    ∃ ts, Pattern.Reads (Pattern.ofSegments ss).items (pathOf ps) ts :=
  ⟨_, reads_ofSegments.2 ⟨ps, h, rfl, rfl⟩⟩

/-- What is walked as it stands is read as it stands. -/
theorem exists_reads_of_describes (h : Describes (word ss) x) :
    ∃ ts, Pattern.Reads (Pattern.ofSegments ss).items x ts := by
  obtain ⟨ps, hps, rfl⟩ := describes_word.1 h
  exact exists_reads_of_forall₂ (hps.imp fun _ _ => reads_of_covers)

theorem exists_covers_path (h : n.Faithful) (hd : Describes (word ss) (n.path r)) :
    ∃ qs, r = pathOf qs ∧ List.Forall₂ (fun s q => s.Covers (n.path q)) (visible ss) qs := by
  obtain ⟨ps, hps, hr⟩ := describes_word.1 hd
  obtain ⟨qs, rfl, rfl⟩ := h.exists_of_path_eq_pathOf hr
  exact ⟨qs, rfl, List.forall₂_map_right_iff.1 hps⟩

theorem reads_of_forall₂_covers_path {ps : List Text} (h : n.Faithful) (hs : ∀ s ∈ ss, s.Normal n)
    (hc : List.Forall₂ (fun s p => s.Covers (n.path p)) ss ps) : List.Forall₂ Reads ss ps :=
  ((List.forall₂_and_left _ _).2 ⟨hs, hc⟩).imp fun _ _ hx => reads_of_covers_path h hx.1 hx.2

/-- What is walked in normal form is read in any form. -/
theorem exists_reads_of_describes_path (h : n.Faithful) (hs : ∀ s ∈ ss, s.Normal n)
    (hd : Describes (word ss) (n.path r)) :
    ∃ ts, Pattern.Reads (Pattern.ofSegments ss).items r ts := by
  obtain ⟨qs, rfl, hqs⟩ := exists_covers_path h hd
  exact exists_reads_of_forall₂ (reads_of_forall₂_covers_path h (forall_visible hs) hqs)

def isStar : Segment → Bool
  | star _ => true
  | _ => false

theorem slash_not_mem_of_reads (h : n.Faithful) (hn : s.Normal n) (hs : s.isStar = false)
    (hr : s.Reads q) : '/' ∉ q := by
  cases s with
  | static text =>
    obtain ⟨p, hp, -, rfl⟩ := hn
    exact Pattern.slash_not_mem_of_reads_literal (h.slash_not_mem hp) hr
  | dynamic name => exact hr.2
  | star name => exact nomatch hs
  | epsilon =>
    obtain rfl : q = [] := hr
    simp

theorem slash_not_mem_of_forall₂ {ps : List Text} (h : n.Faithful) (hn : ∀ s ∈ ss, s.Normal n)
    (hs : ∀ s ∈ ss, s.isStar = false) (hr : List.Forall₂ Reads ss ps) : ∀ p ∈ ps, '/' ∉ p := by
  induction hr with
  | nil => simp
  | cons hp _ ih =>
    rw [List.forall_mem_cons] at hn hs ⊢
    exact ⟨slash_not_mem_of_reads h hn.1 hs.1 hp, ih hn.2 hs.2⟩

theorem slash_not_mem_of_visible {ps : List Text} (h : n.Faithful) (hn : ∀ s ∈ ss, s.Normal n)
    (hs : ∀ s ∈ ss, s.isStar = false) (hr : List.Forall₂ Reads (visible ss) ps) : ∀ p ∈ ps, '/' ∉ p :=
  slash_not_mem_of_forall₂ h (forall_visible hn) (forall_visible hs) hr

theorem forall₂_captures {R : Text → Text → Prop} {ps qs : List Text} (h : List.Forall₂ R ps qs)
    (ss : List Segment) : List.Forall₂ R (captures ss ps) (captures ss qs) := by
  induction h generalizing ss with
  | nil => simp [captures]
  | cons hr h ih =>
    cases ss with
    | nil => exact .nil
    | cons s ss =>
      rw [captures_cons, captures_cons, captured, captured]
      refine List.rel_append ?_ (ih ss)
      split_ifs
      · exact .cons hr .nil
      · exact .nil

/-- Without a star a path has one cut only, in which static pieces have the normal form of their text. -/
theorem covers_path_of_reads {ps : List Text} (h : n.Faithful) (hn : ∀ s ∈ ss, s.Normal n)
    (hs : ∀ s ∈ ss, s.isStar = false) (hr : List.Forall₂ Reads (visible ss) ps)
    (hd : Describes (word ss) (n.path (pathOf ps))) :
    List.Forall₂ (fun s p => s.Covers (n.path p)) (visible ss) ps := by
  obtain ⟨qs, he, hqs⟩ := exists_covers_path h hd
  have hq := reads_of_forall₂_covers_path h (forall_visible hn) hqs
  rwa [pathOf_injective (hr.length_eq.symm.trans hq.length_eq)
    (fun p hp => slash_not_mem_of_visible h hn hs hr p (List.mem_of_mem_dropLast hp))
    (fun q hm => slash_not_mem_of_visible h hn hs hq q (List.mem_of_mem_dropLast hm)) he]

theorem captures_of_path_eq (h : n.Faithful) (hn : ∀ s ∈ ss, s.Normal n)
    (hs : ∀ s ∈ ss, s.isStar = false) {y : Text} {us : List Text} (hxy : n.path x = n.path y)
    (hx : Pattern.Reads (Pattern.ofSegments ss).items x ts)
    (hy : Pattern.Reads (Pattern.ofSegments ss).items y us) :
    List.Forall₂ (fun t u => '/' ∉ t ∧ n.path t = n.path u) ts us := by
  obtain ⟨ps, hps, rfl, rfl⟩ := reads_ofSegments.1 hx
  obtain ⟨qs, hqs, rfl, rfl⟩ := reads_ofSegments.1 hy
  have free : ∀ {ps : List Text}, List.Forall₂ Reads (visible ss) ps → ∀ p ∈ ps, '/' ∉ p :=
    slash_not_mem_of_visible h hn hs
  have path_free : ∀ {ps : List Text}, List.Forall₂ Reads (visible ss) ps →
      ∀ p ∈ (ps.map n.path).dropLast, '/' ∉ p := by
    intro ps hr p hp
    obtain ⟨q, hq, rfl⟩ := List.mem_map.1 (List.mem_of_mem_dropLast hp)
    rw [h.path_of_not_mem (free hr q hq)]
    exact h.slash_not_mem (free hr q hq)
  rw [h.path_pathOf, h.path_pathOf] at hxy
  have he := pathOf_injective (by simp [← hps.length_eq, ← hqs.length_eq]) (path_free hps)
    (path_free hqs) hxy
  rw [← List.forall₂_eq_eq_eq, List.forall₂_map_left_iff, List.forall₂_map_right_iff] at he
  exact forall₂_captures ((List.forall₂_and_left _ _).2 ⟨free hps, he⟩) _

end Segment

theorem Pattern.Reads.exists_append {is : List Item} {s : Text} {ts : List Text}
    (h : Reads is s ts) (hl : is.getLast? = some .rest) (t : Text) :
    ∃ us, Reads is (s ++ t) us := by
  obtain ⟨js, rfl⟩ := List.getLast?_eq_some_iff.1 hl
  obtain ⟨a, b, us, vs, ha, hb, rfl, -⟩ := append_iff.1 h
  have hb : b ≠ [] := (singleton_iff.1 hb).1
  refine ⟨us ++ [b ++ t], append_iff.2 ⟨a, b ++ t, us, [b ++ t], ha, ?_, by simp, rfl⟩⟩
  refine singleton_iff.2 ⟨?_, rfl⟩
  intro h
  exact hb (List.append_eq_nil_iff.1 h).1

end Routing
