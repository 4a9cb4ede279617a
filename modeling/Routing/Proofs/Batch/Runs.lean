import Routing.Proofs.Batch.Extraction

/-! A path that is walked and read as it stands. It falls into pieces by the word of a batch and into
pieces by its pattern. Up to the first star and from the last one on no piece holds a slash, so there the
two cuts are the same, and between two stars they can differ where a static text is read in escapes. -/

namespace Routing

variable {p p' u : Text} {ps qs xs xs' ys ys' : List Text}

/-- Behind pieces without slashes the next one begins at the same place in every cut. -/
theorem piece_eq_left (hx : xs.length = xs'.length) (hy : ys.length = ys'.length)
    (hs : ∀ q ∈ xs ++ [p], '/' ∉ q) (hs' : ∀ q ∈ xs' ++ [p'], '/' ∉ q)
    (h : (xs ++ p :: ys).flatMap ('/' :: ·) = (xs' ++ p' :: ys').flatMap ('/' :: ·)) : p = p' := by
  induction xs generalizing xs' with
  | nil =>
    obtain rfl := List.length_eq_zero_iff.1 hx.symm
    have hp : '/' ∉ p := hs p (by simp)
    have hp' : '/' ∉ p' := hs' p' (by simp)
    cases ys with
    | nil =>
      obtain rfl := List.length_eq_zero_iff.1 hy.symm
      simpa using h
    | cons y ys =>
      obtain ⟨y', ys', rfl⟩ := List.exists_cons_of_length_eq_add_one hy.symm
      exact (append_slash_inj hp hp' (List.cons.inj h).2).1
  | cons x xs ih =>
    obtain ⟨x', xs', rfl⟩ := List.exists_cons_of_length_eq_add_one hx.symm
    rw [List.cons_append, List.forall_mem_cons] at hs hs'
    have head : ∀ (xs : List Text) (p : Text) (ys : List Text),
        ∃ u, (xs ++ p :: ys).flatMap ('/' :: ·) = '/' :: u := by
      intro xs p ys
      cases xs <;> exact ⟨_, rfl⟩
    obtain ⟨u, hu⟩ := head xs p ys
    obtain ⟨u', hu'⟩ := head xs' p' ys'
    rw [List.cons_append, List.cons_append, List.flatMap_cons, List.flatMap_cons, hu, hu'] at h
    have hrest := (append_slash_inj hs.1 hs'.1 (List.cons.inj h).2).2
    exact ih (Nat.succ.inj hx) hs.2 hs'.2 (by rw [hu, hu', hrest])

theorem cons_slash_reverse (ps : List Text) : '/' :: (ps.flatMap ('/' :: ·)).reverse =
    ((ps.reverse.map List.reverse) ++ [[]]).flatMap ('/' :: ·) := by
  induction ps with
  | nil => rfl
  | cons p ps ih =>
    rw [List.flatMap_cons, List.reverse_append, ← List.cons_append, ih]
    simp

theorem piece_eq_right (hx : xs.length = xs'.length) (hy : ys.length = ys'.length)
    (hs : ∀ q ∈ p :: ys, '/' ∉ q) (hs' : ∀ q ∈ p' :: ys', '/' ∉ q)
    (h : (xs ++ p :: ys).flatMap ('/' :: ·) = (xs' ++ p' :: ys').flatMap ('/' :: ·)) : p = p' := by
  have hr := congrArg (fun s => '/' :: s.reverse) h
  simp only [cons_slash_reverse, List.reverse_append, List.reverse_cons, List.map_append, List.map_cons,
    List.append_assoc, List.singleton_append] at hr
  have hmem : ∀ {p : Text} {ys : List Text}, (∀ q ∈ p :: ys, '/' ∉ q) →
      ∀ q ∈ ys.reverse.map List.reverse ++ [p.reverse], '/' ∉ q := by
    intro p ys hs q hq
    rw [← List.map_singleton, ← List.map_append, List.mem_map] at hq
    obtain ⟨a, ha, rfl⟩ := hq
    rw [List.mem_reverse]
    exact hs a (by simpa [or_comm] using ha)
  exact List.reverse_injective (piece_eq_left (by simp [hy]) (by simp [hx]) (hmem hs) (hmem hs') hr)

namespace Segment

variable {n : Normalizer} {ss as zs : List Segment} {text : Text}

theorem forall₂_split {R : Segment → Text → Prop} (hl : as.length = xs.length)
    (h : List.Forall₂ R (as ++ .static text :: zs) (xs ++ p :: ys)) :
    List.Forall₂ R as xs ∧ R (.static text) p ∧ List.Forall₂ R zs ys := by
  obtain ⟨us, vs, he, has, hrest⟩ := exists_of_forall₂_append h
  obtain ⟨rfl, rfl⟩ := List.append_inj he (hl.symm.trans has.length_eq)
  exact ⟨has, List.forall₂_cons.1 hrest⟩

/-- A static text is read as it stands, except between two stars, and there too if without escapes. -/
theorem static_piece_cases (hf : n.Faithful) (hn : ∀ s ∈ ss, s.Normal n)
    (hps : List.Forall₂ Reads ss ps) (hqs : List.Forall₂ Covers ss qs) (h : pathOf ps = pathOf qs)
    (hss : ss = as ++ .static text :: zs) (hxs : ps = xs ++ p :: ys) (hl : as.length = xs.length) :
    p = text ∨ '%' ∈ p ∧ (∃ s ∈ as, s.isStar) ∧ ∃ s ∈ zs, s.isStar := by
  subst hss hxs
  obtain ⟨has, hp, hzs⟩ := forall₂_split hl hps
  obtain ⟨xs', us, rfl, hxs', hus⟩ := exists_of_forall₂_append hqs
  obtain ⟨q, ys', hq, hys', rfl⟩ := List.forall₂_cons_left_iff.1 hus
  obtain rfl : text = q := Eq.symm hq
  have hx : xs.length = xs'.length := hl.symm.trans hxs'.length_eq
  have hy : ys.length = ys'.length := hzs.length_eq.symm.trans hys'.length_eq
  rw [pathOf_of_ne_nil (by simp), pathOf_of_ne_nil (by simp)] at h
  have free : ∀ {ts : List Segment} {rs : List Text}, (∀ s ∈ ts, s ∈ as ++ .static text :: zs) →
      (∀ s ∈ ts, s.isStar = false) → List.Forall₂ Reads ts rs → ∀ r ∈ rs, '/' ∉ r :=
    fun hts hstar hr => slash_not_mem_of_forall₂ hf (fun s hs => hn s (hts s hs)) hstar hr
  have hself : List.Forall₂ Reads [.static text] [text] := .cons (Pattern.reads_literal_self text) .nil
  -- on a side without a star the slashes fix where the piece begins or ends
  by_cases ha : ∃ s ∈ as, s.isStar
  · by_cases hz : ∃ s ∈ zs, s.isStar
    · by_cases hm : '%' ∈ p
      · exact .inr ⟨hm, ha, hz⟩
      · exact .inl (Pattern.eq_of_reads_literal hp hm)
    · left
      push Not at hz
      have hstar : ∀ s ∈ .static text :: zs, s.isStar = false :=
        List.forall_mem_cons.2 ⟨rfl, fun s hs => by simpa using hz s hs⟩
      have hmem : ∀ s ∈ .static text :: zs, s ∈ as ++ .static text :: zs :=
        fun _ => List.mem_append_right as
      exact piece_eq_right hx hy (free hmem hstar (.cons hp hzs))
        (free hmem hstar (List.rel_append hself (hys'.imp fun _ _ => reads_of_covers))) h
  · left
    push Not at ha
    have hstar : ∀ s ∈ as ++ [.static text], s.isStar = false := by
      intro s hs
      rcases List.mem_append.1 hs with hs | hs
      · simpa using ha s hs
      · rw [List.mem_singleton.1 hs]
        rfl
    have hmem : ∀ s ∈ as ++ [.static text], s ∈ as ++ .static text :: zs :=
      fun s hs => List.append_cons as _ zs ▸ List.mem_append_left zs hs
    exact piece_eq_left hx hy (free hmem hstar (List.rel_append has (.cons hp .nil)))
      (free hmem hstar (List.rel_append (hxs'.imp fun _ _ => reads_of_covers) hself)) h

end Segment

end Routing
