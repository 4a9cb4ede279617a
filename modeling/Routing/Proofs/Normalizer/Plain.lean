import Routing.Proofs.Normalizer.Paths
import Routing.Proofs.Percent.Uri

/-! Plain paths, which decode alike segment by segment and as a whole. Such a path spells its normal
form character by character: no escape is left in that form, and no slash comes out of one. -/

namespace Routing.Percent

open Normalizer (Decodes decodeSegment percent faithful_percent)

variable {a b d e p q r s t : Text} {c : Char} {l : List Text}

/-- Every percent sign starts an escape, the segments decode to UTF-8, and no escape stands for a
percent sign or for a reserved character. -/
structure Plain (p : Text) : Prop where
  wellFormed : wellFormed p
  decodes : ∀ s ∈ p.splitOn '/', (decode? s).isSome
  escapes : ∀ n ∈ escapes p, Char.ofNat n ≠ '%' ∧ reserved (Char.ofNat n) = false

/-- A character other than a percent sign, by itself or by its escapes. A slash has no escapes. -/
structure Token (c : Char) (p : Text) : Prop where
  ne_percent : c ≠ '%'
  eq_or : p = [c] ∨ c ≠ '/' ∧ Caseless (escapeChar c) p

inductive Spells : Text → Text → Prop where
  | nil : Spells [] []
  | cons {c : Char} {p r d : Text} : Token c p → Spells r d → Spells (p ++ r) (c :: d)

theorem token_self (h : c ≠ '%') : Token c [c] := ⟨h, .inl rfl⟩

namespace Token

theorem spelling (h : Token c p) : c ≠ '%' ∧ p = [c] ∨ Caseless (escapeChar c) p :=
  h.eq_or.imp (fun hp => ⟨h.ne_percent, hp⟩) And.right

theorem ne_nil (h : Token c p) : p ≠ [] := by
  rcases h.eq_or with rfl | ⟨-, h⟩
  · simp
  · obtain ⟨q, rfl⟩ := exists_percent_cons h
    simp

theorem slash (h : Token '/' p) : p = ['/'] := h.eq_or.resolve_right fun h => h.1 rfl

theorem slash_not_mem (h : Token c p) (hc : c ≠ '/') : '/' ∉ p :=
  Pattern.slash_not_mem_of_reads_char hc (Pattern.reads_char.2 (h.eq_or.imp_right And.right))

/-- No other spelling of any character begins a text that begins with a token. -/
theorem eq_of_append_eq {e : Char} (h : Token e p) (hs : decode? s = some t) (hc : c ≠ '%')
    (hq : q = [c] ∨ Caseless (escapeChar c) q) (he : p ++ s = q ++ r) : c = e ∧ q = p := by
  obtain rfl : c = e := by
    have hd := decode?_spelling h.spelling s
    rw [he, decode?_spelling (hq.imp_left fun hq => ⟨hc, hq⟩), hs, Option.map_some] at hd
    obtain ⟨u, -, hu⟩ := Option.map_eq_some_iff.1 hd
    exact (List.cons.inj hu).1
  refine ⟨rfl, ?_⟩
  rcases h.eq_or with rfl | ⟨-, hp⟩ <;> rcases hq with rfl | hq
  · rfl
  · obtain ⟨u, rfl⟩ := exists_percent_cons hq
    exact absurd (List.cons.inj he).1 hc
  · obtain ⟨u, rfl⟩ := exists_percent_cons hp
    exact absurd (List.cons.inj he).1.symm hc
  · exact (List.append_inj he (hp.length_eq.symm.trans hq.length_eq)).1.symm

end Token

namespace Spells

theorem append (h : Spells r d) (h' : Spells s e) : Spells (r ++ s) (d ++ e) := by
  induction h with
  | nil => exact h'
  | cons ht _ ih =>
    rw [List.append_assoc]
    exact .cons ht ih

theorem append_iff : Spells r (d ++ e) ↔ ∃ p q, r = p ++ q ∧ Spells p d ∧ Spells q e := by
  refine ⟨fun h => ?_, ?_⟩
  · induction d generalizing r with
    | nil => exact ⟨[], r, rfl, .nil, h⟩
    | cons c d ih =>
      cases h with
      | cons ht h =>
        obtain ⟨p, q, rfl, hp, hq⟩ := ih h
        exact ⟨_, q, (List.append_assoc ..).symm, .cons ht hp, hq⟩
  · intro hx
    obtain ⟨p, q, rfl, hp, hq⟩ := hx
    exact hp.append hq

theorem singleton_iff : Spells p [c] ↔ Token c p := by
  refine ⟨fun h => ?_, fun h => ?_⟩
  · cases h with
    | cons ht h =>
      cases h
      rwa [List.append_nil]
  · rw [← List.append_nil p]
    exact .cons h .nil

theorem percent_not_mem (h : Spells r d) : '%' ∉ d := by
  induction h with
  | nil => simp
  | cons ht _ ih => simp [ht.ne_percent.symm, ih]

theorem decodes (h : Spells r d) : Decodes r d := by
  induction h with
  | nil => exact ⟨rfl, rfl⟩
  | cons ht _ ih => exact decode?_spelling_append ht.spelling ih.1 ih.2

theorem eq_nil_iff (h : Spells r d) : r = [] ↔ d = [] := by
  cases h with
  | nil => simp
  | cons ht _ => simp [ht.ne_nil]

theorem exists_append_slash (h : Spells r d) (ha : a ≠ []) (hr : r = a ++ ['/']) :
    ∃ e, e ≠ [] ∧ d = e ++ ['/'] := by
  rcases List.eq_nil_or_concat' d with rfl | ⟨e, c, rfl⟩
  · simp [h.eq_nil_iff.2 rfl] at hr
  obtain ⟨p, q, rfl, hp, hq⟩ := append_iff.1 h
  have hq := singleton_iff.1 hq
  rcases List.eq_nil_or_concat' q with rfl | ⟨q, x, rfl⟩
  · exact absurd rfl hq.ne_nil
  rw [← List.append_assoc] at hr
  obtain ⟨rfl, hx⟩ := List.append_inj' hr rfl
  obtain rfl := List.singleton_inj.1 hx
  -- the slash at the end is no part of an escape, so it stands for itself
  obtain rfl : c = '/' := by
    by_contra hc
    exact hq.slash_not_mem hc (by simp)
  obtain rfl : q = [] := by simpa using hq.slash
  rw [List.append_nil] at ha
  exact ⟨e, fun he => ha (hp.eq_nil_iff.2 he), rfl⟩

end Spells

theorem Caseless.escapes_append {bs : List UInt8} (h : Caseless (bs.flatMap escapeByte) p)
    (s : Text) : escapes (p ++ s) = bs.map UInt8.toNat ++ escapes s := by
  induction bs generalizing p with
  | nil =>
    rw [List.forall₂_nil_left_iff.1 h]
    rfl
  | cons b bs ih =>
    obtain ⟨x, y, q, rfl, hx, hy, hq⟩ := h.exists_escape
    rw [List.cons_append, List.cons_append, List.cons_append, escapes_escape hx hy, ih hq,
      Nat.div_add_mod]
    rfl

theorem toNat_mem_escapes (h : Caseless (escapeChar c) p) (hc : c.toNat ≤ 127) (s : Text) :
    c.toNat ∈ escapes (p ++ s) := by
  have e : c.val.toNat = c.toNat := rfl
  rw [escapeChar] at h
  rw [h.escapes_append]
  simp [String.utf8EncodeChar, e, hc]
  omega

theorem escapes_subset_append (hp : c ≠ '%' ∧ p = [c] ∨ Caseless (escapeChar c) p) (q : Text) :
    escapes q ⊆ escapes (p ++ q) := by
  rcases hp with ⟨hc, rfl⟩ | h
  · rw [List.singleton_append, escapes_cons hc]
    exact List.Subset.refl _
  · rw [escapeChar] at h
    rw [h.escapes_append]
    exact List.subset_append_right _ _

theorem token_of_escapes (hp : c ≠ '%' ∧ p = [c] ∨ Caseless (escapeChar c) p)
    (he : ∀ n ∈ escapes (p ++ q), Char.ofNat n ≠ '%' ∧ reserved (Char.ofNat n) = false) :
    Token c p := by
  rcases hp with ⟨hc, rfl⟩ | h
  · exact token_self hc
  · have ascii : c.toNat ≤ 127 → c ≠ '%' ∧ reserved c = false := by
      intro hc
      have := he c.toNat (toNat_mem_escapes h hc q)
      rwa [Char.ofNat_toNat] at this
    refine ⟨?_, .inr ⟨?_, h⟩⟩
    · intro hc
      exact (ascii (hc ▸ by decide)).1 hc
    · intro hc
      have hr := (ascii (hc ▸ by decide)).2
      rw [hc] at hr
      exact absurd hr (by decide)

theorem spells_of_decodes (h : Decodes s t)
    (he : ∀ n ∈ escapes s, Char.ofNat n ≠ '%' ∧ reserved (Char.ofNat n) = false) : Spells s t := by
  induction t generalizing s with
  | nil =>
    obtain rfl : s = [] := unescape_eq_nil (Utf8.decode?_eq_some_iff.1 h.2)
    exact .nil
  | cons c t ih =>
    obtain ⟨p, q, rfl, hp, hq⟩ := exists_spelling h.1 h.2
    exact .cons (token_of_escapes hp he) (ih hq fun n hn => he n (escapes_subset_append hp q hn))

theorem Spells.decodeSegment_eq (h : Spells s t) (hs : '/' ∉ s) : decodeSegment s = t := by
  rw [Normalizer.decodeSegment_of_decodes hs h.decodes]
  refine Normalizer.protect_of_not_mem h.percent_not_mem fun hm => ?_
  obtain ⟨d, e, rfl⟩ := List.append_of_mem hm
  obtain ⟨p, q, rfl, -, hq⟩ := append_iff.1 h
  cases hq with
  | cons ht _ => exact hs (by simp [ht.slash])

theorem split_wellFormed (h : wellFormed (a ++ '/' :: b)) :
    wellFormed a ∧ wellFormed b ∧ escapes (a ++ '/' :: b) = escapes a ++ escapes b := by
  have hs : isHex '/' = false := by decide
  fun_induction wellFormed a with
  | case1 x y a ih =>
    simp only [List.cons_append, wellFormed, Bool.and_eq_true] at h
    obtain ⟨⟨hx, hy⟩, h⟩ := h
    obtain ⟨ha, hb, he⟩ := ih h
    obtain ⟨m, hm⟩ := isHex_iff.1 hx
    obtain ⟨n, hn⟩ := isHex_iff.1 hy
    refine ⟨by simp [hx, hy, ha], hb, ?_⟩
    rw [List.cons_append, List.cons_append, List.cons_append, escapes_escape hm hn,
      escapes_escape hm hn, he, List.cons_append]
  | case2 a ha =>
    -- the slash would have to be a digit of the escape
    exfalso
    rcases a with _ | ⟨x, _ | ⟨y, a⟩⟩
    · cases b <;> simp [wellFormed, hs] at h
    · simp [wellFormed, hs] at h
    · exact ha x y a rfl
  | case3 c a _ hc ih =>
    have hc : c ≠ '%' := hc
    rw [List.cons_append, wellFormed_cons hc] at h
    obtain ⟨ha, hb, he⟩ := ih h
    rw [List.cons_append, escapes_cons hc, escapes_cons hc]
    exact ⟨ha, hb, he⟩
  | case4 =>
    rw [List.nil_append, wellFormed_cons (by decide)] at h
    rw [List.nil_append, escapes_cons (by decide)]
    exact ⟨rfl, h, rfl⟩

theorem wellFormed_of_mem_intercalate (h : wellFormed (['/'].intercalate l)) (hs : s ∈ l) :
    wellFormed s ∧ escapes s ⊆ escapes (['/'].intercalate l) := by
  induction l with
  | nil => simp at hs
  | cons t l ih =>
    by_cases hl : l = []
    · subst hl
      obtain rfl := List.mem_singleton.1 hs
      rw [List.intercalate_singleton] at h ⊢
      exact ⟨h, List.Subset.refl _⟩
    · rw [List.intercalate_cons_of_ne_nil hl, List.append_assoc, List.singleton_append] at h ⊢
      obtain ⟨ht, hw, he⟩ := split_wellFormed h
      rw [he]
      rcases List.mem_cons.1 hs with rfl | hs
      · exact ⟨ht, List.subset_append_left _ _⟩
      · obtain ⟨hs, hsub⟩ := ih hw hs
        exact ⟨hs, fun n hn => List.mem_append_right _ (hsub hn)⟩

theorem spells_intercalate (h : ∀ s ∈ l, Spells s (decodeSegment s)) :
    Spells (['/'].intercalate l) (['/'].intercalate (l.map decodeSegment)) := by
  induction l with
  | nil => exact .nil
  | cons t l ih =>
    rw [List.forall_mem_cons] at h
    by_cases hl : l = []
    · subst hl
      simpa using h.1
    · rw [List.map_cons, List.intercalate_cons_of_ne_nil hl,
        List.intercalate_cons_of_ne_nil (by simpa using hl)]
      exact (h.1.append (Spells.singleton_iff.2 (token_self (by decide)))).append (ih h.2)

namespace Plain

/-- A plain path spells its normal form. -/
theorem spells (h : Plain p) : Spells p (percent.path p) := by
  have hp : ['/'].intercalate (p.splitOn '/') = p := List.intercalate_splitOn ..
  have hl : ∀ s ∈ p.splitOn '/', Spells s (decodeSegment s) := by
    intro s hs
    obtain ⟨hw, he⟩ := wellFormed_of_mem_intercalate (hp.symm ▸ h.wellFormed) hs
    obtain ⟨t, ht⟩ := Option.isSome_iff_exists.1 (h.decodes s hs)
    rw [hp] at he
    have hst := spells_of_decodes ⟨hw, ht⟩ fun n hn => h.escapes n (he hn)
    rwa [hst.decodeSegment_eq (not_mem_of_mem_splitOn hs)]
  have := spells_intercalate hl
  rwa [hp] at this

/-- The two ways to decode a path agree where it is plain. -/
theorem decodeUri_eq (h : Plain p) : decodeUri p = percent.path p := by
  rw [decodeUri_of_escapes fun n hn => (h.escapes n hn).2, decodeOrKeep, h.spells.decodes.2,
    Option.getD_some]

theorem slash_cons (h : Plain p) : Plain ('/' :: p) where
  wellFormed := by
    rw [wellFormed_cons (by decide)]
    exact h.wellFormed
  decodes := by
    have hs : ('/' :: p).splitOn '/' = [] :: p.splitOn '/' := List.splitOn_append_cons_self [] p
    rw [hs]
    exact List.forall_mem_cons.2 ⟨rfl, h.decodes⟩
  escapes := by
    rw [escapes_cons (by decide)]
    exact h.escapes

end Plain
end Routing.Percent
