import Routing.Proofs.Batch.Ending
import Routing.Proofs.Batch.Rendering
import Routing.Proofs.Router.Forms

/-! Paths that are put together from pieces for the segments of a batch. What is walked for such a path
is described by the word of the batch, its closing slash belongs to a star, and with a star at the end
at most its captures are the pieces it was put together from. -/

namespace Routing

variable {H : Type} {m n : Normalizer} {d : Dict Text} {ss : List Segment} {ps qs ts : List Text}

namespace Segment

/-- A piece that can stand for a segment in a path. Only that of a star may hold a slash, and it may be
no single one. -/
structure Fits (n : Normalizer) (s : Segment) (p : Text) : Prop where
  covers : s.Covers (n.path p)
  reads : s.Reads p
  isStar : '/' ∈ p → s.isStar
  ne_nil : p ≠ []
  ne_slash : p ≠ ['/']

theorem Rendered.fits {s : Segment} {p : Text} (h : s.Rendered d p) : s.Fits .percent p :=
  ⟨h.covers, h.reads, h.isStar, h.ne_nil, h.ne_slash⟩

/-- A closing slash of a path belongs to the piece of a star, which is longer than that. -/
theorem exists_star_of_closed (h : List.Forall₂ (Fits n) ss ps) (hc : Closed (pathOf ps)) :
    ∃ ts name qs p, ss = ts ++ [.star name] ∧ ps = qs ++ [p ++ ['/']] ∧ p ≠ [] ∧
      List.Forall₂ (Fits n) ts qs := by
  obtain ⟨a, ha, hp⟩ := hc
  obtain ⟨qs, q, rfl⟩ := exists_of_pathOf_eq_append hp ha fun p hm => by
    obtain ⟨s, -, hs⟩ := exists_of_mem_forall₂ h hm
    exact hs.ne_nil
  obtain ⟨ts, s, rfl, hts, hs⟩ := forall₂_append_singleton h
  have hstar := hs.isStar (by simp)
  cases s with
  | star name =>
    refine ⟨ts, name, qs, q, rfl, rfl, ?_, hts⟩
    rintro rfl
    exact hs.ne_slash rfl
  | static text => exact nomatch hstar
  | dynamic name => exact nomatch hstar
  | epsilon => exact nomatch hstar

theorem describes_walked (hf : n.Faithful) (h : List.Forall₂ (Fits n) (visible ss) ps) :
    Describes (word ss) (PathForms.ofPath n (pathOf ps)).walked := by
  rw [PathForms.ofPath, PathForms.walked_trim, ← hf.path_dropClosing, describes_word]
  by_cases hc : Closed (pathOf ps)
  · obtain ⟨ts, name, qs, p, hts, rfl, hp0, h⟩ := exists_star_of_closed h hc
    have hd : dropClosing (pathOf (qs ++ [p ++ ['/']])) = pathOf (qs ++ [p]) := by
      rw [pathOf_append_singleton, pathOf_append_singleton, ← List.cons_append, ← List.append_assoc,
        dropClosing_append_singleton (by simp)]
    refine ⟨(qs ++ [p]).map n.path, ?_, by rw [hd, hf.path_pathOf]⟩
    rw [hts, List.forall₂_map_right_iff]
    refine List.rel_append (h.imp fun _ _ hr => hr.covers) (.cons ?_ .nil)
    exact fun h0 => hp0 (hf.path_eq_nil.1 h0)
  · refine ⟨ps.map n.path, ?_, by rw [dropClosing_of_not hc, hf.path_pathOf]⟩
    rw [List.forall₂_map_right_iff]
    exact h.imp fun _ _ hr => hr.covers

end Segment

namespace Batch

variable {b : Batch H}

/-- Captures are read from the whole of a path that was put together for the batch. -/
theorem textOf_ofPath (hf : n.Faithful)
    (h : List.Forall₂ (Segment.Fits n) (Segment.visible b.segments) ps) :
    b.entry.textOf (.ofPath n (pathOf ps)) = pathOf ps := by
  rw [Entry.textOf_ofPath hf]
  split_ifs with hs
  · rfl
  · apply dropClosing_of_not
    intro hc
    obtain ⟨ts, name, -, -, hts, -, -, -⟩ := Segment.exists_star_of_closed h hc
    apply hs
    apply (Pattern.closesWithStar_iff _).2
    simp [Batch.entry, Batch.pattern, Pattern.ofSegments, hts, Pattern.ofSegment]

end Batch

/-- With a star at the end at most, a path has one cut into pieces that the pattern reads. -/
theorem Segment.eq_of_reads (hm : m.Faithful) (hn : ∀ s ∈ ss, s.Normal m)
    (hs : ∀ s ∈ ss.dropLast, s.isStar = false) (hps : List.Forall₂ Reads ss ps)
    (hqs : List.Forall₂ Reads ss qs) (h : pathOf ps = pathOf qs) : ps = qs := by
  have free : ∀ {ps : List Text}, List.Forall₂ Reads ss ps → ∀ p ∈ ps.dropLast, '/' ∉ p := by
    intro ps hps
    refine slash_not_mem_of_forall₂ hm (fun s hm => hn s (List.mem_of_mem_dropLast hm)) hs ?_
    rw [List.dropLast_eq_take, List.dropLast_eq_take, hps.length_eq]
    exact List.forall₂_take _ hps
  exact pathOf_injective (hps.length_eq.symm.trans hqs.length_eq) (free hps) (free hqs) h

theorem Segment.captures_of_reads (hm : m.Faithful) (hn : ∀ s ∈ ss, s.Normal m)
    (hs : ∀ s ∈ (visible ss).dropLast, s.isStar = false) (h : List.Forall₂ Reads (visible ss) ps)
    (hr : Pattern.Reads (Pattern.ofSegments ss).items (pathOf ps) ts) :
    ts = captures (visible ss) ps := by
  obtain ⟨qs, hqs, he, rfl⟩ := reads_ofSegments.1 hr
  rw [eq_of_reads hm (forall_visible hn) hs h hqs he]

theorem Batch.forall₂_binds {b : Batch H} {hits : List (Hit H)} {decode : Bool} (hf : n.Faithful)
    (hm : m.Faithful) (hn : ∀ s ∈ b.segments, s.Normal m)
    (hs : ∀ s ∈ (Segment.visible b.segments).dropLast, s.isStar = false)
    (h : List.Forall₂ (fun s p => s.Fits n p ∧ ∀ q ∈ s.param?, Endpoint.Returns decode d q p)
      (Segment.visible b.segments) ps)
    (hh : b.entry.hits? decode (.ofPath n (pathOf ps)) = some hits) :
    List.Forall₂ (Hit.Binds d) b.endpoints hits := by
  rw [Entry.hits?_eq, textOf_ofPath hf (h.imp fun _ _ hr => hr.1)] at hh
  obtain ⟨ts, hts, rfl⟩ := Option.map_eq_some_iff.1 hh
  rw [Segment.captures_of_reads hm hn hs (h.imp fun _ _ hr => hr.1.reads)
    (Pattern.reads_of_captures? hts)]
  apply Endpoint.forall₂_deal
  rw [b.flatMap_params_endpoints]
  exact (Segment.forall₂_captures_iff h.length_eq).2 (h.imp fun _ _ hr => hr.2)

end Routing
