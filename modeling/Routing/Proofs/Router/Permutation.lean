import Routing.Proofs.Batch.Kinds
import Routing.Proofs.Router.Forms

/-! Registration in another order. Of single routes without stars and with different words no two are
found for the same path with the same specificity, so the choice does not depend on the order. -/

namespace Routing

variable {H : Type} {n : Normalizer} {xs ys : List (Registration H)}

theorem standing_eq_self {bs : List (Batch H)} (h : bs.Pairwise fun b c => b.word ≠ c.word) :
    standing bs = bs := by
  induction h with
  | nil => rfl
  | @cons b bs hb _ ih =>
    rw [standing, ih, if_neg]
    intro ha
    obtain ⟨c, hc, hw⟩ := List.any_eq_true.1 ha
    exact hb c hc (by simpa using (of_decide_eq_true hw).symm)

theorem Batch.specificity_of_length_one {b : Batch H} (h : b.length = 1) :
    b.specificity = ⟨b.segments.map Segment.digit⟩ := by
  obtain ⟨⟨r, x⟩, rfl⟩ := List.length_eq_one_iff.1 h
  simp [Batch.specificity, Batch.segments, Route.specificity]

theorem Batch.segments_ne_nil {routes : List (Text × H)} (h : routes ≠ []) :
    (Batch.parse n routes).segments ≠ [] := by
  obtain ⟨r, rs, rfl⟩ := List.exists_cons_of_ne_nil h
  simp [Batch.parse, Batch.segments, Route.parse]

def Registration.batch (n : Normalizer) (x : Registration H) : Batch H := Batch.parse n x.routes

theorem sublist_accepted (k : Compiler) (n : Normalizer) (xs : List (Registration H)) :
    ((accepted k n xs).map Accepted.batch).Sublist (xs.map (Registration.batch n)) := by
  induction xs with
  | nil => exact .slnil
  | cons x xs ih =>
    rw [accepted, List.filterMap_cons, List.map_cons]
    cases hx : x.accepted? k n with
    | none => exact ih.cons _
    | some a =>
      obtain ⟨-, rfl⟩ := Registration.accepted?_eq_some_iff.1 hx
      exact ih.cons_cons _

/-- Single routes without stars and with different words. -/
structure Separate (n : Normalizer) (bs : List (Batch H)) : Prop where
  single : ∀ b ∈ bs, b.length = 1
  plain : ∀ b ∈ bs, Segment.Plain n b.segments
  words : bs.Pairwise fun b c => b.word ≠ c.word

namespace Separate

variable {bs cs : List (Batch H)} {b b' : Batch H} {s : Text}

theorem perm (h : Separate n bs) (hp : bs.Perm cs) : Separate n cs where
  single b hb := h.single b (hp.mem_iff.2 hb)
  plain b hb := h.plain b (hp.mem_iff.2 hb)
  words := (hp.pairwise_iff fun hne => hne.symm).1 h.words

theorem sublist (h : Separate n bs) (hs : cs.Sublist bs) : Separate n cs where
  single b hb := h.single b (hs.subset hb)
  plain b hb := h.plain b (hs.subset hb)
  words := h.words.sublist hs

theorem word_ne (h : Separate n bs) (hb : b ∈ bs) (hb' : b' ∈ bs) (hne : b ≠ b') :
    b.word ≠ b'.word := by
  have : Std.Symm fun b c : Batch H => b.word ≠ c.word := ⟨fun _ _ hne => hne.symm⟩
  exact h.words.forall hb hb' hne

theorem compare_ne (hf : n.Faithful) (h : Separate n bs) (hb : b ∈ bs) (hb' : b' ∈ bs)
    (hne : b.word ≠ b'.word) (hd : Describes b.word s) (hd' : Describes b'.word s) :
    compare b.specificity b'.specificity ≠ .eq := by
  intro he
  have he := Std.LawfulEqCmp.eq_of_compare he
  rw [Batch.specificity_of_length_one (h.single b hb),
    Batch.specificity_of_length_one (h.single b' hb'), Specificity.mk.injEq] at he
  exact hne ((h.plain b hb).word_eq hf (h.plain b' hb') he hd hd')

/-- Of two that describe the same text, the one that is not exceeded is the more literal one. -/
theorem prevails (hf : n.Faithful) (h : Separate n bs) (he : ∀ b ∈ bs, .epsilon ∉ b.segments)
    (h0 : ∀ b ∈ bs, b.segments ≠ []) (hb : b ∈ bs) (hb' : b' ∈ bs) (hne : b.word ≠ b'.word)
    (hd : Describes b.word s) (hd' : Describes b'.word s)
    (hle : compare b.specificity b'.specificity ≠ .lt) :
    Segment.Prevails b.segments b'.segments := by
  have hl : b.segments.length = b'.segments.length := by
    rw [(h.plain b hb).length_eq_count hf (he b hb) (h0 b hb) hd,
      (h.plain b' hb').length_eq_count hf (he b' hb') (h0 b' hb') hd']
  have hlt := Specificity.lt_of_not_lt hle (h.compare_ne hf hb hb' hne hd hd')
  rw [Batch.specificity_of_length_one (h.single b hb),
    Batch.specificity_of_length_one (h.single b' hb'),
    Specificity.compare_of_length_eq (by simp [hl])] at hlt
  refine Segment.prevails_of_lt (fun s hs => ⟨(h.plain b' hb').isStar s hs, ?_⟩) hl hlt
  cases s with
  | epsilon => exact absurd hs (he b' hb')
  | static text | dynamic name | star name => rfl

end Separate

namespace Router

variable {k : Compiler} {c : Config} {s : Text}

/-- The same candidates in another order give the same choice if no two of them tie. -/
theorem select_congr (hm : ∀ b, b ∈ candidates k n xs s ↔ b ∈ candidates k n ys s)
    (hne : ∀ b ∈ candidates k n xs s, ∀ b' ∈ candidates k n xs s, b ≠ b' →
      compare b.specificity b'.specificity ≠ .eq) :
    (run k c n xs).select s = (run k c n ys).select s := by
  cases hs : (run k c n xs).select s with
  | none =>
    cases hy : (run k c n ys).select s with
    | none => rfl
    | some e =>
      obtain ⟨⟨b, hb, -⟩, -⟩ := of_select k c n ys s hy
      have := (isSome_select k c n xs s).2 ⟨b, (hm b).2 hb⟩
      simp [hs] at this
  | some e =>
    obtain ⟨⟨b, hb, rfl⟩, hle⟩ := of_select k c n xs s hs
    refine (select_of_lt k c n ys s ((hm b).1 hb) fun b' hb' hbb => ?_).symm
    have hb' := (hm b').2 hb'
    exact Specificity.lt_of_not_lt (hle b' hb') (hne b hb b' hb' hbb.symm)

theorem mem_candidates_of_separate (h : Separate n (xs.map (Registration.batch n))) {b : Batch H} :
    b ∈ candidates k n xs s ↔ b ∈ (accepted k n xs).map Accepted.batch ∧ Describes b.word s := by
  rw [mem_candidates, inForce, standing_eq_self (h.sublist (sublist_accepted k n xs)).words]

theorem select_perm (hf : n.Faithful) (h : Separate n (xs.map (Registration.batch n)))
    (hp : xs.Perm ys) (s : Text) : (run k c n xs).select s = (run k c n ys).select s := by
  apply select_congr
  · intro b
    have ha : (accepted k n xs).Perm (accepted k n ys) := hp.filterMap _
    rw [mem_candidates_of_separate h, mem_candidates_of_separate (h.perm (hp.map _)),
      (ha.map Accepted.batch).mem_iff]
  · intro b hb b' hb' hne
    obtain ⟨hm, hd⟩ := (mem_candidates_of_separate h).1 hb
    obtain ⟨hm', hd'⟩ := (mem_candidates_of_separate h).1 hb'
    have ha := h.sublist (sublist_accepted k n xs)
    exact ha.compare_ne hf hm hm' (ha.word_ne hm hm' hne) hd hd'

/-- Single routes without stars and with different words resolve alike in whatever order they are
registered. No two of them are as specific as each other for a text that both describe, and where
none has an empty piece the one that wins prevails over all others that describe the text. -/
theorem resolve_perm (k : Compiler) (c : Config) (hn : n = .percent ∨ n = .identity) (hp : xs.Perm ys)
    (hone : ∀ x ∈ xs, x.routes.length = 1)
    (hstar : ∀ x ∈ xs, ∀ s ∈ (x.batch n).segments, s.isStar = false)
    (hw : xs.Pairwise fun x y => (x.batch n).word ≠ (y.batch n).word) :
    (∀ address, (run k c n xs).resolve address = (run k c n ys).resolve address) ∧
      (xs.Pairwise fun x y => ∀ s, Describes (x.batch n).word s → Describes (y.batch n).word s →
        compare (x.batch n).specificity (y.batch n).specificity ≠ .eq) ∧
      ((∀ x ∈ xs, .epsilon ∉ (x.batch n).segments) →
        ∀ s, ∀ a ∈ accepted k n xs, (run k c n xs).select s = some a.batch.entry →
          ∀ a' ∈ accepted k n xs, a'.batch ≠ a.batch → Describes a'.batch.word s →
            Segment.Prevails a.batch.segments a'.batch.segments) := by
  have hf := Normalizer.faithful_of_eq hn
  have h : Separate n (xs.map (Registration.batch n)) := by
    refine ⟨List.forall_mem_map.2 fun x hx => ?_, List.forall_mem_map.2 fun x hx => ?_,
      List.pairwise_map.2 hw⟩
    · rw [Registration.batch, Batch.parse, List.length_map, hone x hx]
    · exact ⟨Batch.normal_parse n x.routes, hstar x hx⟩
  refine ⟨fun address => ?_, ?_, fun he s a ha hs a' ha' hne hd' => ?_⟩
  · rw [resolve_run, resolve_run, select_perm hf h hp]
  · refine hw.imp_of_mem fun {x y} hx hy hne s hd hd' => ?_
    exact h.compare_ne hf (List.mem_map_of_mem hx) (List.mem_map_of_mem hy) hne hd hd'
  · have h0 : ∀ x ∈ xs, (x.batch n).segments ≠ [] := by
      intro x hx
      apply Batch.segments_ne_nil
      intro h0
      simpa [h0] using hone x hx
    have hm := (sublist_accepted k n xs).subset (List.mem_map_of_mem ha)
    have hm' := (sublist_accepted k n xs).subset (List.mem_map_of_mem ha')
    obtain ⟨⟨b, hb, hbe⟩, hle⟩ := of_select k c n xs s hs
    -- an entry still shows the word of its batch, so the winner's word describes the text
    have hd := (mem_candidates.1 hb).2
    rw [← Batch.word_entry, hbe, Batch.word_entry] at hd
    apply h.prevails hf (List.forall_mem_map.2 he) (List.forall_mem_map.2 h0) hm hm'
      (h.word_ne hm hm' hne.symm) hd hd'
    exact hle _ ((mem_candidates_of_separate h).2 ⟨List.mem_map_of_mem ha', hd'⟩)

/-- A literal path is not taken by the parameter that was registered before it or after it. -/
theorem resolve_perm_static_dynamic :
    (run .lenient {} .percent [⟨[([':', 'p'], 0)], none⟩, ⟨[(['a'], 1)], none⟩]).resolve ['/', 'a'] =
        (run .lenient {} .percent [⟨[(['a'], 1)], none⟩, ⟨[([':', 'p'], 0)], none⟩]).resolve ['/', 'a'] ∧
      Segment.Prevails [.static ['a']] [.dynamic ['p']] := by
  have h := @resolve_perm Nat .percent [⟨[([':', 'p'], 0)], none⟩, ⟨[(['a'], 1)], none⟩]
    [⟨[(['a'], 1)], none⟩, ⟨[([':', 'p'], 0)], none⟩] .lenient {} (.inl rfl) (.swap _ _ _) (by simp)
    (by decide) (by decide)
  refine ⟨h.1 _, h.2.2 (by decide) ['/', 'a'] ⟨[(⟨[.static ['a']]⟩, 1)], none⟩ ?_ rfl
    ⟨[(⟨[.dynamic ['p']]⟩, 0)], none⟩ ?_ (by decide) (by decide)⟩
  · exact .tail _ (.head _)
  · exact .head _

end Router
end Routing
