import Routing.Text

/-! UTF-8 over lists of bytes. Reading is strict: a group of bytes is accepted only when it is the
encoding of the character it spells, so reading accepts exactly what writing produces. -/

namespace Routing.Utf8

def encode (s : Text) : List UInt8 := s.flatMap String.utf8EncodeChar

/-- The character with scalar value `n`, provided `bytes` is how it is written. -/
def spelled? (bytes : List UInt8) (n : Nat) : Option Char :=
  if String.utf8EncodeChar (Char.ofNat n) = bytes then some (Char.ofNat n) else none

def tail (b : UInt8) : Nat := b.toNat % 64

def cons? (c : Option Char) (s : Option Text) : Option Text := c.bind fun c => s.map (c :: ·)

/-- The first byte of a group tells how many there are. -/
def decode? : List UInt8 → Option Text
  | [] => some []
  | a :: r =>
    if a.toNat < 0x80 then cons? (spelled? [a] a.toNat) (decode? r)
    else match r with
      | [] => none
      | b :: r =>
        if a.toNat < 0xE0 then
          cons? (spelled? [a, b] (a.toNat % 32 * 64 + tail b)) (decode? r)
        else match r with
          | [] => none
          | b' :: r =>
            if a.toNat < 0xF0 then
              cons? (spelled? [a, b, b'] ((a.toNat % 16 * 64 + tail b) * 64 + tail b')) (decode? r)
            else match r with
              | [] => none
              | b'' :: r =>
                cons? (spelled? [a, b, b', b'']
                  (((a.toNat % 8 * 64 + tail b) * 64 + tail b') * 64 + tail b'')) (decode? r)

theorem encode_cons (c : Char) (s : Text) :
    encode (c :: s) = String.utf8EncodeChar c ++ encode s := List.flatMap_cons

theorem encode_append (s t : Text) : encode (s ++ t) = encode s ++ encode t := List.flatMap_append

theorem spelled?_eq_some {bytes : List UInt8} {n : Nat} {c : Char} (h : spelled? bytes n = some c) :
    String.utf8EncodeChar c = bytes := by
  unfold spelled? at h
  split at h
  · next he => exact Option.some.inj h ▸ he
  · cases h

theorem spelled?_eq {bytes : List UInt8} {n : Nat} {c : Char} (hn : n = c.toNat)
    (h : String.utf8EncodeChar c = bytes) : spelled? bytes n = some c := by
  simp [spelled?, hn, h]

theorem encode_of_cons? {c : Option Char} {s : Option Text} {t : Text} {group bytes : List UInt8}
    (h : cons? c s = some t) (hc : ∀ d, c = some d → String.utf8EncodeChar d = group)
    (hs : ∀ u, s = some u → encode u = bytes) : encode t = group ++ bytes := by
  obtain ⟨d, hd, h⟩ := Option.bind_eq_some_iff.1 h
  obtain ⟨u, hu, rfl⟩ := Option.map_eq_some_iff.1 h
  rw [encode_cons, hc d hd, hs u hu]

/-- Reading accepts nothing but what writing produces. -/
theorem encode_of_decode? {bytes : List UInt8} {s : Text} (h : decode? bytes = some s) :
    encode s = bytes := by
  fun_induction decode? bytes generalizing s with
  | case1 => cases h; rfl
  | case2 a r ha ih => exact encode_of_cons? h (fun _ => spelled?_eq_some) fun _ => ih
  | case3 => cases h
  | case4 a ha b r hb ih => exact encode_of_cons? h (fun _ => spelled?_eq_some) fun _ => ih
  | case5 => cases h
  | case6 a ha b hb b' r hb' ih => exact encode_of_cons? h (fun _ => spelled?_eq_some) fun _ => ih
  | case7 => cases h
  | case8 a ha b hb b' hb' b'' r ih =>
    exact encode_of_cons? h (fun _ => spelled?_eq_some) fun _ => ih

theorem toNat_ofNat {n : Nat} (h : n < 256) : (UInt8.ofNat n).toNat = n := by
  simpa using Nat.mod_eq_of_lt h

theorem toNat_lt (c : Char) : c.toNat < 0x110000 := by
  rcases c.valid with h | h
  · exact Nat.lt_trans h (by decide)
  · exact h.2

theorem encodeChar_of_lt {c : Char} (h : c.toNat < 128) :
    String.utf8EncodeChar c = [UInt8.ofNat c.toNat] := by
  have e : c.val.toNat = c.toNat := rfl
  simp [String.utf8EncodeChar, e, Nat.le_of_lt_succ h]

theorem decode?_one {a : UInt8} (r : List UInt8) (h : a.toNat < 0x80) :
    decode? (a :: r) = cons? (spelled? [a] a.toNat) (decode? r) := by
  rw [decode?.eq_def]
  simp only [h, if_true]

theorem decode?_two {a b : UInt8} (r : List UInt8) (h : ¬ a.toNat < 0x80) (h' : a.toNat < 0xE0) :
    decode? (a :: b :: r) =
      cons? (spelled? [a, b] (a.toNat % 32 * 64 + tail b)) (decode? r) := by
  rw [decode?.eq_def]
  simp only [h, h', if_true, if_false]

theorem decode?_three {a b b' : UInt8} (r : List UInt8) (h : ¬ a.toNat < 0xE0)
    (h' : a.toNat < 0xF0) :
    decode? (a :: b :: b' :: r) =
      cons? (spelled? [a, b, b'] ((a.toNat % 16 * 64 + tail b) * 64 + tail b')) (decode? r) := by
  rw [decode?.eq_def]
  simp only [h, h', if_true, if_false, show ¬ a.toNat < 0x80 by omega]

theorem decode?_four {a b b' b'' : UInt8} (r : List UInt8) (h : ¬ a.toNat < 0xF0) :
    decode? (a :: b :: b' :: b'' :: r) =
      cons? (spelled? [a, b, b', b'']
        (((a.toNat % 8 * 64 + tail b) * 64 + tail b') * 64 + tail b'')) (decode? r) := by
  rw [decode?.eq_def]
  simp only [h, if_false, show ¬ a.toNat < 0x80 by omega, show ¬ a.toNat < 0xE0 by omega]

theorem decode?_char_append (c : Char) (r : List UInt8) :
    decode? (String.utf8EncodeChar c ++ r) = (decode? r).map (c :: ·) := by
  have hv := toNat_lt c
  have e : c.val.toNat = c.toNat := rfl
  -- one case for each number of bytes
  by_cases h1 : c.toNat ≤ 127
  · have hc := encodeChar_of_lt (Nat.lt_succ_of_le h1)
    have ha := toNat_ofNat (show c.toNat < 256 by omega)
    rw [hc, List.singleton_append, decode?_one r (by omega), spelled?_eq (c := c) ha hc]
    rfl
  by_cases h2 : c.toNat ≤ 2047
  · have hc : String.utf8EncodeChar c =
        [UInt8.ofNat (c.toNat / 64 % 32 + 192), UInt8.ofNat (c.toNat % 64 + 128)] := by
      simp [String.utf8EncodeChar, e, h1, h2]
    have ha := toNat_ofNat (show c.toNat / 64 % 32 + 192 < 256 by omega)
    have hb := toNat_ofNat (show c.toNat % 64 + 128 < 256 by omega)
    rw [hc, List.cons_append, List.singleton_append, decode?_two r (by omega) (by omega),
      spelled?_eq (c := c) (by unfold tail; omega) hc]
    rfl
  by_cases h3 : c.toNat ≤ 65535
  · have hc : String.utf8EncodeChar c =
        [UInt8.ofNat (c.toNat / 4096 % 16 + 224), UInt8.ofNat (c.toNat / 64 % 64 + 128),
          UInt8.ofNat (c.toNat % 64 + 128)] := by
      simp [String.utf8EncodeChar, e, h1, h2, h3]
    have ha := toNat_ofNat (show c.toNat / 4096 % 16 + 224 < 256 by omega)
    have hb := toNat_ofNat (show c.toNat / 64 % 64 + 128 < 256 by omega)
    have hb' := toNat_ofNat (show c.toNat % 64 + 128 < 256 by omega)
    rw [hc, List.cons_append, List.cons_append, List.singleton_append,
      decode?_three r (by omega) (by omega), spelled?_eq (c := c) (by unfold tail; omega) hc]
    rfl
  · have hc : String.utf8EncodeChar c =
        [UInt8.ofNat (c.toNat / 262144 % 8 + 240), UInt8.ofNat (c.toNat / 4096 % 64 + 128),
          UInt8.ofNat (c.toNat / 64 % 64 + 128), UInt8.ofNat (c.toNat % 64 + 128)] := by
      simp [String.utf8EncodeChar, e, h1, h2, h3]
    have ha := toNat_ofNat (show c.toNat / 262144 % 8 + 240 < 256 by omega)
    have hb := toNat_ofNat (show c.toNat / 4096 % 64 + 128 < 256 by omega)
    have hb' := toNat_ofNat (show c.toNat / 64 % 64 + 128 < 256 by omega)
    have hb'' := toNat_ofNat (show c.toNat % 64 + 128 < 256 by omega)
    rw [hc, List.cons_append, List.cons_append, List.cons_append, List.singleton_append,
      decode?_four r (by omega), spelled?_eq (c := c) (by unfold tail; omega) hc]
    rfl

theorem decode?_encode_append (s : Text) (r : List UInt8) :
    decode? (encode s ++ r) = (decode? r).map (s ++ ·) := by
  induction s with
  | nil => simp [encode]
  | cons c s ih =>
    rw [encode_cons, List.append_assoc, decode?_char_append, ih, Option.map_map]
    rfl

theorem decode?_encode (s : Text) : decode? (encode s) = some s := by
  simpa [decode?] using decode?_encode_append s []

theorem decode?_eq_some_iff {bytes : List UInt8} {s : Text} :
    decode? bytes = some s ↔ bytes = encode s :=
  ⟨fun h => (encode_of_decode? h).symm, fun h => h ▸ decode?_encode s⟩

end Routing.Utf8
