import Routing.Proofs.Normalizer.NormalForm
import Routing.Proofs.Pattern.Reading
import Routing.Proofs.Percent.Spelling

/-! The items of a static text. They read the text itself and, when it is a normal form, every
segment of that form; they capture nothing and do not leave the segment. -/

namespace Routing.Pattern

open Percent Normalizer

variable {r s t : Text} {ts : List Text} {c : Char}

theorem writes_caseless {p : Text} : Spelling.Writes ⟨p, true⟩ t ↔ Caseless p t := by
  simp [Spelling.Writes, Caseless]

theorem writes_exact {p : Text} : Spelling.Writes ⟨p, false⟩ t ↔ t = p := by
  simp [Spelling.Writes]

theorem reads_char : Item.Reads (.char c) t ↔ t = [c] ∨ Caseless (escapeChar c) t := by
  simp [Item.Reads, Item.spellings, writes_caseless, writes_exact]

theorem reads_escape {h l : Char} : Item.Reads (.escape h l) t ↔ Caseless ['%', h, l] t := by
  simp [Item.Reads, Item.spellings, writes_caseless]

theorem reads_slash : Item.Reads .slash t ↔ t = ['/'] := by
  simp [Item.Reads, Item.spellings, writes_exact]

theorem literal_cons (h : c ≠ '%') : literal (c :: s) = .char c :: literal s := by
  rw [literal]
  intro _ _ _ hc
  exact absurd hc h

theorem literal_escape {a b : Char} (ha : isHex a) (hb : isHex b) :
    literal ('%' :: a :: b :: s) = .escape a b :: literal s := by
  rw [literal, ha, hb]
  rfl

theorem reads_literal_self (s : Text) : Reads (literal s) s [] := by
  fun_induction literal s with
  | case1 a b s h ih => exact .cons (reads_escape.2 (.refl _)) ih
  | case2 a b s h ih => exact .cons (reads_char.2 (.inl rfl)) ih
  | case3 c s h ih => exact .cons (reads_char.2 (.inl rfl)) ih
  | case4 => exact .nil

theorem captured_of_mem_literal {i : Item} (h : i ∈ literal s) (t : Text) : i.captured t = [] := by
  fun_induction literal s with
  | case1 a b s _ ih | case2 a b s _ ih | case3 a s _ ih =>
    rcases List.mem_cons.1 h with rfl | h
    · rfl
    · exact ih h
  | case4 => simp at h

/-- The first item of a normal form reads the spellings of its first character, except a slash that
stands for itself. -/
theorem exists_literal_protect_cons (c : Char) (t : Text) :
    ∃ i : Item, literal (protect (c :: t)) = i :: literal (protect t) ∧
      ∀ p, i.Reads p ↔ c ≠ '%' ∧ c ≠ '/' ∧ p = [c] ∨ Caseless (escapeChar c) p := by
  rw [protect_cons]
  split_ifs with h1 h2
  · subst h1
    refine ⟨_, literal_escape (by decide) (by decide), fun p => ?_⟩
    rw [reads_escape]
    exact ⟨.inr, fun h => h.resolve_left fun h => h.1 rfl⟩
  · subst h2
    refine ⟨_, literal_escape (by decide) (by decide), fun p => ?_⟩
    rw [reads_escape]
    exact ⟨.inr, fun h => h.resolve_left fun h => h.2.1 rfl⟩
  · refine ⟨_, literal_cons h1, fun p => ?_⟩
    rw [reads_char]
    simp [h1, h2]

/-- The items of a normal form read every spelling of it. -/
theorem reads_literal_protect (hr : '/' ∉ r) (h : Decodes r t) :
    Reads (literal (protect t)) r [] := by
  induction t generalizing r with
  | nil =>
    obtain rfl : r = [] := unescape_eq_nil (Utf8.decode?_eq_some_iff.1 h.2)
    exact .nil
  | cons c t ih =>
    obtain ⟨p, q, rfl, hp, hq⟩ := exists_spelling h.1 h.2
    rw [List.mem_append, not_or] at hr
    obtain ⟨i, hi, hreads⟩ := exists_literal_protect_cons c t
    have hc : i.captured p = [] := captured_of_mem_literal (hi ▸ List.mem_cons_self) p
    rw [hi]
    refine Reads.cons_iff.2 ⟨p, q, [], ?_, ih hr.2 hq, rfl, by rw [hc]; rfl⟩
    refine (hreads p).2 (hp.imp_left fun hp => ⟨hp.1, ?_, hp.2⟩)
    rintro rfl
    simp [hp.2] at hr

theorem reads_literal_decodeSegment (hr : '/' ∉ r) : Reads (literal (decodeSegment r)) r [] := by
  rcases decodeSegment_cases hr with ⟨t, ht, h⟩ | ⟨-, h⟩
  · rw [h]
    exact reads_literal_protect hr ht
  · rw [h]
    exact reads_literal_self r

theorem slash_not_mem_of_caseless (h : Caseless s t) (hs : ∀ c ∈ s, c = '%' ∨ isHex c) : '/' ∉ t := by
  induction h with
  | nil => simp
  | @cons a b s t hab _ ih =>
    rw [List.forall_mem_cons] at hs
    rw [List.mem_cons, not_or]
    refine ⟨?_, ih hs.2⟩
    rintro rfl
    rcases hs.1 with rfl | ha
    · exact absurd hab (by decide)
    · obtain ⟨x, hx⟩ := isHex_iff.1 ha
      obtain ⟨hlt, ha, -⟩ := toUpper_of_hexValue? hx
      have : ∀ x < 16, hexDigit x ≠ '/' := by decide
      exact this x hlt (by simpa [sameLetter, ha] using hab)

theorem slash_not_mem_of_reads_escape {a b : Char} (ha : isHex a) (hb : isHex b)
    (h : Item.Reads (.escape a b) t) : '/' ∉ t :=
  slash_not_mem_of_caseless (reads_escape.1 h) (by simp [ha, hb])

theorem slash_not_mem_of_reads_char (hc : c ≠ '/') (h : Item.Reads (.char c) t) : '/' ∉ t := by
  rcases reads_char.1 h with rfl | h
  · simpa using hc.symm
  · apply slash_not_mem_of_caseless h
    intro d hd
    rcases mem_escapeChar hd with rfl | ⟨x, hx, rfl⟩
    · exact .inl rfl
    · exact .inr (isHex_iff.2 ⟨x, hexValue?_hexDigit x hx⟩)

theorem slash_not_mem_of_mem_literal {i : Item} (hs : '/' ∉ s) (hi : i ∈ literal s)
    (h : i.Reads t) : '/' ∉ t := by
  fun_induction literal s with
  | case1 a b s hab ih =>
    simp only [List.mem_cons, not_or] at hs
    rw [Bool.and_eq_true] at hab
    rcases List.mem_cons.1 hi with rfl | hi
    · exact slash_not_mem_of_reads_escape hab.1 hab.2 h
    · exact ih hs.2.2.2 hi
  | case2 a b s hab ih =>
    rw [List.mem_cons, not_or] at hs
    rcases List.mem_cons.1 hi with rfl | hi
    · exact slash_not_mem_of_reads_char (by decide) h
    · exact ih hs.2 hi
  | case3 a s _ ih =>
    rw [List.mem_cons, not_or] at hs
    rcases List.mem_cons.1 hi with rfl | hi
    · exact slash_not_mem_of_reads_char (Ne.symm hs.1) h
    · exact ih hs.2 hi
  | case4 => simp at hi

theorem Reads.eq_nil_of_captured {is : List Item} (hi : ∀ i ∈ is, ∀ t, i.captured t = [])
    (h : Reads is t ts) : ts = [] := by
  induction h with
  | nil => rfl
  | @cons i is t s ts _ _ ih =>
    rw [List.forall_mem_cons] at hi
    rw [hi.1 t, ih hi.2]
    rfl

theorem Reads.not_mem {is : List Item} (hi : ∀ i ∈ is, ∀ t, i.Reads t → c ∉ t)
    (h : Reads is t ts) : c ∉ t := by
  induction h with
  | nil => simp
  | cons ht _ ih =>
    rw [List.forall_mem_cons] at hi
    rw [List.mem_append, not_or]
    exact ⟨hi.1 _ ht, ih hi.2⟩

theorem eq_nil_of_reads_literal (h : Reads (literal s) t ts) : ts = [] :=
  h.eq_nil_of_captured fun _ hi => captured_of_mem_literal hi

theorem eq_of_reads_literal (h : Reads (literal s) t ts) (ht : '%' ∉ t) : t = s := by
  have char_eq : ∀ {c p}, Item.Reads (.char c) p → '%' ∉ p → p = [c] := by
    intro c p hr hp
    refine (reads_char.1 hr).resolve_right fun hc => hp ?_
    obtain ⟨q, rfl⟩ := exists_percent_cons hc
    exact List.mem_cons_self
  fun_induction literal s generalizing t ts with
  | case1 a b s _ ih =>
    obtain ⟨p, r, us, hp, hr, rfl, -⟩ := Reads.cons_iff.1 h
    obtain ⟨e, q, he, -, rfl⟩ := List.forall₂_cons_left_iff.1 (reads_escape.1 hp)
    simp [eq_percent_of_sameLetter he] at ht
  | case2 a b s _ ih | case3 c s _ ih =>
    obtain ⟨p, r, us, hp, hr, rfl, -⟩ := Reads.cons_iff.1 h
    rw [List.mem_append, not_or] at ht
    rw [char_eq hp ht.1, ih hr ht.2]
    rfl
  | case4 => exact (Reads.nil_iff.1 h).1

theorem slash_not_mem_of_reads_literal (hs : '/' ∉ s) (h : Reads (literal s) t ts) : '/' ∉ t :=
  h.not_mem fun _ hi _ ht => slash_not_mem_of_mem_literal hs hi ht

end Routing.Pattern
