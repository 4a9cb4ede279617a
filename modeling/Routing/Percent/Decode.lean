import Routing.Percent.Escape

/-! Decoding of percent escapes. Decoding is lenient about `%` signs that start no escape, which
stand for themselves, and strict about the bytes that come out, which have to be UTF-8. -/

namespace Routing.Percent

/-- The bytes that a text with escapes stands for. -/
def unescape : Text → List UInt8
  | '%' :: h :: l :: s =>
    match hexValue? h, hexValue? l with
    | some x, some y => UInt8.ofNat (16 * x + y) :: unescape s
    | _, _ => String.utf8EncodeChar '%' ++ unescape (h :: l :: s)
  | c :: s => String.utf8EncodeChar c ++ unescape s
  | [] => []

def decode? (s : Text) : Option Text := Utf8.decode? (unescape s)

/-- The decoded text, or the text itself where the bytes are no UTF-8. -/
def decodeOrKeep (s : Text) : Text := (decode? s).getD s

/-- Every `%` starts an escape of two hexadecimal digits. -/
def wellFormed : Text → Bool
  | '%' :: h :: l :: s => isHex h && isHex l && wellFormed s
  | '%' :: _ => false
  | _ :: s => wellFormed s
  | [] => true

theorem hexValue?_hexDigit : ∀ n < 16, hexValue? (hexDigit n) = some n := by decide

theorem unescape_escapeByte (b : UInt8) (s : Text) :
    unescape (escapeByte b ++ s) = b :: unescape s := by
  have hb := b.toNat_lt
  have h := hexValue?_hexDigit (b.toNat / 16) (by omega)
  have l := hexValue?_hexDigit (b.toNat % 16) (by omega)
  simp only [escapeByte, List.cons_append, List.nil_append, unescape, h, l]
  rw [Nat.div_add_mod, UInt8.ofNat_toNat]

theorem unescape_cons {c : Char} (h : c ≠ '%') (s : Text) :
    unescape (c :: s) = String.utf8EncodeChar c ++ unescape s := by
  rw [unescape]
  intro _ _ _ hc
  exact absurd hc h

theorem unescape_escapeChar (c : Char) (s : Text) :
    unescape (escapeChar c ++ s) = String.utf8EncodeChar c ++ unescape s := by
  unfold escapeChar
  induction String.utf8EncodeChar c with
  | nil => rfl
  | cons b r ih =>
    rw [List.flatMap_cons, List.append_assoc, unescape_escapeByte, ih]
    rfl

theorem unescape_encodeWith_append {safe : Char → Bool} (h : safe '%' = false) (s t : Text) :
    unescape (encodeWith safe s ++ t) = Utf8.encode s ++ unescape t := by
  induction s with
  | nil => rfl
  | cons c s ih =>
    rw [encodeWith, List.flatMap_cons, ← encodeWith, Utf8.encode_cons, List.append_assoc,
      List.append_assoc]
    split
    · next hc => rw [List.singleton_append, unescape_cons (by rintro rfl; simp [h] at hc), ih]
    · rw [unescape_escapeChar, ih]

theorem unescape_encodeWith {safe : Char → Bool} (h : safe '%' = false) (s : Text) :
    unescape (encodeWith safe s) = Utf8.encode s := by
  simpa [unescape] using unescape_encodeWith_append h s []

theorem decode?_encodeWith {safe : Char → Bool} (h : safe '%' = false) (s : Text) :
    decode? (encodeWith safe s) = some s := by
  rw [decode?, unescape_encodeWith h, Utf8.decode?_encode]

end Routing.Percent
