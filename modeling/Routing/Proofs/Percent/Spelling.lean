import Routing.Pattern.Captures
import Routing.Proofs.Percent.Escapes

/-! The texts that decode to a given one. Each character is spelled by itself or by the escapes of
all its bytes, and the bytes of one character never mix the two, since a plain character does not
begin with a continuation byte. -/

namespace Routing.Percent

open Pattern (sameLetter)

def Caseless (s t : Text) : Prop := List.Forall₂ (fun a b => sameLetter a b) s t

theorem sameLetter_refl (c : Char) : sameLetter c c := by simp [sameLetter]

theorem Caseless.refl (s : Text) : Caseless s s := List.forall₂_same.2 fun c _ => sameLetter_refl c

theorem sameLetter_hexDigit {c : Char} {x : Nat} (h : hexValue? c = some x) :
    sameLetter (hexDigit x) c := by
  obtain ⟨-, hc, hx⟩ := toUpper_of_hexValue? h
  simp [sameLetter, hc, hx]

theorem caseless_escapeByte {a b : Char} {x y : Nat} (ha : hexValue? a = some x)
    (hb : hexValue? b = some y) :
    Caseless (escapeByte (UInt8.ofNat (16 * x + y))) ['%', a, b] := by
  have hx := (toUpper_of_hexValue? ha).1
  have hy := (toUpper_of_hexValue? hb).1
  have hn := Utf8.toNat_ofNat (show 16 * x + y < 256 by omega)
  rw [escapeByte, hn, show (16 * x + y) / 16 = x by omega, show (16 * x + y) % 16 = y by omega]
  exact .cons (sameLetter_refl _) (.cons (sameLetter_hexDigit ha) (.cons (sameLetter_hexDigit hb) .nil))

theorem toUpper_lt {c : Char} (h : c.toUpper.toNat < 128) : c.toNat < 128 := by
  unfold Char.toUpper at h
  split_ifs at h with hc
  · have : c.toNat ≤ 'z'.toNat := hc.2
    exact this.trans_lt (by decide)
  · exact h

theorem hexValue?_of_sameLetter {c : Char} {x : Nat} (hx : x < 16)
    (h : sameLetter (hexDigit x) c) : hexValue? c = some x := by
  have all : ∀ n < 128, ∀ x < 16, sameLetter (hexDigit x) (Char.ofNat n) →
      hexValue? (Char.ofNat n) = some x := by
    decide +kernel
  have upper : ∀ x < 16, (hexDigit x).toUpper.toNat < 128 := by decide
  have hu : (hexDigit x).toUpper = c.toUpper := by simpa [sameLetter] using h
  have hc : c.toNat < 128 := toUpper_lt (hu ▸ upper x hx)
  rw [← Char.ofNat_toNat c] at h ⊢
  exact all c.toNat hc x hx h

theorem eq_percent_of_sameLetter {c : Char} (h : sameLetter '%' c) : c = '%' := by
  have all : ∀ n < 128, sameLetter '%' (Char.ofNat n) → Char.ofNat n = '%' := by decide +kernel
  have hu : '%'.toUpper = c.toUpper := by simpa [sameLetter] using h
  have hc : c.toNat < 128 := toUpper_lt (hu ▸ by decide)
  rw [← Char.ofNat_toNat c] at h ⊢
  exact all c.toNat hc h

def Continuation (b : UInt8) : Prop := b.toNat / 64 = 2

theorem continuation_ofNat (n : Nat) : Continuation (UInt8.ofNat (n % 64 + 128)) := by
  rw [Continuation, Utf8.toNat_ofNat (by omega)]
  omega

theorem not_continuation_ofNat {n : Nat} (h : n < 128 ∨ 192 ≤ n ∧ n < 256) :
    ¬ Continuation (UInt8.ofNat n) := by
  rw [Continuation, Utf8.toNat_ofNat (by omega)]
  omega

/-- The first byte of a character tells it from the rest of another one. -/
theorem utf8EncodeChar_eq_cons (c : Char) : ∃ b bs, String.utf8EncodeChar c = b :: bs ∧
    ¬ Continuation b ∧ ∀ d ∈ bs, Continuation d := by
  have e : c.val.toNat = c.toNat := rfl
  unfold String.utf8EncodeChar
  simp only [e]
  split_ifs
  · exact ⟨_, _, rfl, not_continuation_ofNat (by omega), by simp⟩
  · refine ⟨_, _, rfl, not_continuation_ofNat (by omega), ?_⟩
    exact List.forall_mem_singleton.2 (continuation_ofNat _)
  · refine ⟨_, _, rfl, not_continuation_ofNat (by omega), List.forall_mem_cons.2 ⟨?_, ?_⟩⟩
    · exact continuation_ofNat _
    · exact List.forall_mem_singleton.2 (continuation_ofNat _)
  · refine ⟨_, _, rfl, not_continuation_ofNat (by omega), List.forall_mem_cons.2 ⟨?_, ?_⟩⟩
    · exact continuation_ofNat _
    · refine List.forall_mem_cons.2 ⟨continuation_ofNat _, ?_⟩
      exact List.forall_mem_singleton.2 (continuation_ofNat _)

variable {r s t : Text} {c : Char}

theorem exists_escapes {bs rest : List UInt8} (hb : ∀ b ∈ bs, Continuation b) (hw : wellFormed r)
    (hr : unescape r = bs ++ rest) :
    ∃ p q, r = p ++ q ∧ Caseless (bs.flatMap escapeByte) p ∧ wellFormed q ∧ unescape q = rest := by
  induction bs generalizing r with
  | nil => exact ⟨[], r, rfl, .nil, hw, hr⟩
  | cons b bs ih =>
    obtain ⟨hb, hbs⟩ := List.forall_mem_cons.1 hb
    rcases wellFormed_cases hw with rfl | ⟨c, t, hc, rfl, ht⟩ | ⟨a, d, x, y, t, ha, hd, rfl, ht⟩
    · simp [unescape] at hr
    · obtain ⟨e, es, he, hne, -⟩ := utf8EncodeChar_eq_cons c
      rw [unescape_cons hc, he, List.cons_append, List.cons_append, List.cons.injEq] at hr
      exact absurd hb (hr.1 ▸ hne)
    · rw [unescape_escape ha hd, List.cons_append, List.cons.injEq] at hr
      obtain ⟨rfl, hr⟩ := hr
      obtain ⟨p, q, rfl, hp, hq, hu⟩ := ih hbs ht hr
      refine ⟨'%' :: a :: d :: p, q, rfl, ?_, hq, hu⟩
      exact List.rel_append (caseless_escapeByte ha hd) hp

/-- A well-formed text that decodes to `c` and more begins with `c` or with the escapes of `c`. -/
theorem exists_spelling (hw : wellFormed r) (hd : decode? r = some (c :: t)) :
    ∃ p q, r = p ++ q ∧ (c ≠ '%' ∧ p = [c] ∨ Caseless (escapeChar c) p) ∧ wellFormed q ∧
      decode? q = some t := by
  have hu : unescape r = String.utf8EncodeChar c ++ Utf8.encode t :=
    (Utf8.decode?_eq_some_iff.1 hd).trans (Utf8.encode_cons c t)
  rcases wellFormed_cases hw with rfl | ⟨e, q, he, rfl, hq⟩ | ⟨a, b, x, y, q, ha, hb, rfl, hq⟩
  · simp [decode?, unescape, Utf8.decode?] at hd
  · rw [decode?, unescape_cons he, Utf8.decode?_char_append] at hd
    obtain ⟨u, hq', hu⟩ := Option.map_eq_some_iff.1 hd
    obtain ⟨rfl, rfl⟩ := List.cons.inj hu
    exact ⟨[e], q, rfl, .inl ⟨he, rfl⟩, hq, hq'⟩
  · obtain ⟨d, ds, hc, -, hds⟩ := utf8EncodeChar_eq_cons c
    rw [unescape_escape ha hb, hc, List.cons_append, List.cons.injEq] at hu
    obtain ⟨rfl, hu⟩ := hu
    obtain ⟨p, q, rfl, hp, hq, hu⟩ := exists_escapes hds hq hu
    refine ⟨'%' :: a :: b :: p, q, rfl, .inr ?_, hq, Utf8.decode?_eq_some_iff.2 hu⟩
    rw [escapeChar, hc]
    exact List.rel_append (caseless_escapeByte ha hb) hp

theorem Caseless.exists_escape {b : UInt8} {p : Text} (h : Caseless (escapeByte b ++ s) p) :
    ∃ x y q, p = '%' :: x :: y :: q ∧ hexValue? x = some (b.toNat / 16) ∧
      hexValue? y = some (b.toNat % 16) ∧ Caseless s q := by
  have hb := b.toNat_lt
  obtain ⟨e, p₁, he, h₁, rfl⟩ := List.forall₂_cons_left_iff.1 h
  obtain ⟨x, p₂, hx, h₂, rfl⟩ := List.forall₂_cons_left_iff.1 h₁
  obtain ⟨y, q, hy, hq, rfl⟩ := List.forall₂_cons_left_iff.1 h₂
  obtain rfl := eq_percent_of_sameLetter he
  exact ⟨x, y, q, rfl, hexValue?_of_sameLetter (by omega) hx, hexValue?_of_sameLetter (by omega) hy, hq⟩

theorem exists_percent_cons {p : Text} (h : Caseless (escapeChar c) p) : ∃ q, p = '%' :: q := by
  obtain ⟨b, bs, hc, -, -⟩ := utf8EncodeChar_eq_cons c
  rw [escapeChar, hc, List.flatMap_cons] at h
  obtain ⟨x, y, q, rfl, -, -, -⟩ := h.exists_escape
  exact ⟨x :: y :: q, rfl⟩

theorem Caseless.unescape_append {bs : List UInt8} {p : Text}
    (h : Caseless (bs.flatMap escapeByte) p) (s : Text) :
    unescape (p ++ s) = bs ++ unescape s ∧ wellFormed (p ++ s) = wellFormed s := by
  induction bs generalizing p with
  | nil =>
    rw [List.forall₂_nil_left_iff.1 h]
    exact ⟨rfl, rfl⟩
  | cons b bs ih =>
    obtain ⟨x, y, q, rfl, hx, hy, hq⟩ := h.exists_escape
    obtain ⟨hu, hw⟩ := ih hq
    refine ⟨?_, ?_⟩
    · rw [List.cons_append, List.cons_append, List.cons_append, unescape_escape hx hy, hu,
        Nat.div_add_mod, UInt8.ofNat_toNat]
      rfl
    · simpa [wellFormed, isHex, hx, hy] using hw

theorem unescape_spelling_append {p : Text} (hp : c ≠ '%' ∧ p = [c] ∨ Caseless (escapeChar c) p)
    (q : Text) : unescape (p ++ q) = String.utf8EncodeChar c ++ unescape q ∧
      wellFormed (p ++ q) = wellFormed q := by
  rcases hp with ⟨hc, rfl⟩ | h
  · exact ⟨unescape_cons hc q, wellFormed_cons hc⟩
  · exact h.unescape_append q

theorem decode?_spelling {p : Text} (hp : c ≠ '%' ∧ p = [c] ∨ Caseless (escapeChar c) p) (q : Text) :
    decode? (p ++ q) = (decode? q).map (c :: ·) := by
  rw [decode?, (unescape_spelling_append hp q).1, Utf8.decode?_char_append, ← decode?]

theorem decode?_spelling_append {p q : Text} (hp : c ≠ '%' ∧ p = [c] ∨ Caseless (escapeChar c) p)
    (hw : wellFormed q) (hq : decode? q = some t) :
    wellFormed (p ++ q) ∧ decode? (p ++ q) = some (c :: t) := by
  rw [(unescape_spelling_append hp q).2, decode?_spelling hp, hq]
  exact ⟨hw, rfl⟩

end Routing.Percent
