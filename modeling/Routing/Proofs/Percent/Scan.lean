import Routing.Proofs.Percent.Spelling
import Routing.Proofs.Percent.Uri

/-! Decoding of a whole address as one scan from left to right. The escapes at which the address is cut
are ASCII, so no cut falls inside a character, and the pieces decode just when the whole does. A slash
cuts the address in the same way. -/

namespace Routing

variable {s t head : Text} {c a b : Char} {bs cs : List UInt8}

namespace Utf8

open Percent (Continuation utf8EncodeChar_eq_cons)

/-- Before a byte that does not continue a character the text falls in two. -/
theorem exists_of_encode_eq_append {d : UInt8} (hd : ¬ Continuation d)
    (h : encode t = bs ++ d :: cs) : ∃ u v, t = u ++ v ∧ bs = encode u ∧ d :: cs = encode v := by
  induction t generalizing bs with
  | nil => simp [encode] at h
  | cons c t ih =>
    by_cases hb : bs = []
    · subst hb
      exact ⟨[], c :: t, rfl, rfl, h.symm⟩
    obtain ⟨e, es, hc, -, hes⟩ := utf8EncodeChar_eq_cons c
    rw [encode_cons, List.append_eq_append_iff] at h
    rcases h with ⟨x, rfl, h⟩ | ⟨x, hx, h⟩
    · obtain ⟨u, v, rfl, rfl, hv⟩ := ih h
      exact ⟨c :: u, v, rfl, (encode_cons c u).symm, hv⟩
    · -- the byte would be one of those that continue the first character
      cases x with
      | nil =>
        refine ⟨[c], t, rfl, ?_, h⟩
        rw [← List.append_nil bs, ← hx]
        exact (List.append_nil _).symm
      | cons y x =>
        obtain ⟨rfl, -⟩ := List.cons.inj h
        obtain ⟨f, bs, rfl⟩ := List.exists_cons_of_ne_nil hb
        rw [hc, List.cons_append] at hx
        obtain ⟨-, rfl⟩ := List.cons.inj hx
        exact absurd (hes d (by simp)) hd

theorem decode?_append_encode (ht : t ≠ []) : decode? (bs ++ (encode t ++ cs)) =
    (decode? bs).bind fun x => (decode? cs).map fun y => x ++ (t ++ y) := by
  cases hb : decode? bs with
  | some x =>
    rw [decode?_eq_some_iff.1 hb, decode?_encode_append, decode?_encode_append, Option.map_map]
    rfl
  | none =>
    rw [Option.bind_none, Option.eq_none_iff_forall_ne_some]
    intro w hw
    obtain ⟨c, t, rfl⟩ := List.exists_cons_of_ne_nil ht
    obtain ⟨d, ds, hc, hd, -⟩ := utf8EncodeChar_eq_cons c
    have h := (decode?_eq_some_iff.1 hw).symm
    rw [encode_cons, hc, List.cons_append, List.cons_append] at h
    obtain ⟨u, -, -, rfl, -⟩ := exists_of_encode_eq_append hd h
    rw [decode?_encode] at hb
    exact nomatch hb

end Utf8

namespace Percent

/-- The bytes that an address stands for when it is decoded as a whole: escapes of reserved characters
are copied, other escapes give their byte, and all else is copied. -/
def scan : Text → List UInt8
  | '%' :: h :: l :: s =>
    if isReservedEscape h l then Utf8.encode ['%', h, l] ++ scan s
    else
      match hexValue? h, hexValue? l with
      | some x, some y => UInt8.ofNat (16 * x + y) :: scan s
      | _, _ => String.utf8EncodeChar '%' ++ scan (h :: l :: s)
  | c :: s => String.utf8EncodeChar c ++ scan s
  | [] => []

theorem scan_cons (h : c ≠ '%') (s : Text) : scan (c :: s) = String.utf8EncodeChar c ++ scan s := by
  rw [scan]
  intro _ _ _ hc
  exact absurd hc h

theorem reservedPieces_cons (h : c ≠ '%') (s : Text) :
    reservedPieces (c :: s) = (reservedPieces s).map (c :: ·) id := by
  rw [reservedPieces]
  intro _ _ _ hc
  exact absurd hc h

/-- A percent sign in front of the text starts no escape. -/
def Lone (s : Text) : Prop := ∀ a b t, s = a :: b :: t → hexValue? a = none ∨ hexValue? b = none

theorem lone_of_not_hex (h : ∀ x y, hexValue? a = some x → hexValue? b = some y → False) :
    Lone (a :: b :: s) := by
  intro c d t ht
  obtain ⟨rfl, rfl, -⟩ : a = c ∧ b = d ∧ s = t := by simpa using ht
  by_contra hx
  rw [not_or, ← Ne, ← Ne, Option.ne_none_iff_exists', Option.ne_none_iff_exists'] at hx
  obtain ⟨⟨x, hx⟩, y, hy⟩ := hx
  exact h x y hx hy

theorem Lone.of_initial (h : Lone s) (ht : t <+: s) : Lone t := by
  intro a b u hu
  obtain ⟨v, rfl⟩ := ht
  exact h a b (u ++ v) (by rw [hu]; rfl)

theorem Lone.unescape (h : Lone s) :
    unescape ('%' :: s) = String.utf8EncodeChar '%' ++ unescape s := by
  match s with
  | [] => rfl
  | [c] => rfl
  | a :: b :: t =>
    rw [Percent.unescape]
    split
    · next ha hb => rcases h a b t rfl with hx | hx <;> simp_all
    · rfl

theorem Lone.scan (h : Lone s) : scan ('%' :: s) = String.utf8EncodeChar '%' ++ scan s := by
  match s with
  | [] => rfl
  | [c] => rfl
  | a :: b :: t =>
    have hr : isReservedEscape a b = false := by
      unfold isReservedEscape
      rcases h a b t rfl with hx | hx <;> simp [hx]
    rw [Percent.scan, hr, if_neg (by simp)]
    split
    · next ha hb => rcases h a b t rfl with hx | hx <;> simp_all
    · rfl

def bytesOf (head : Text) (rest : List (Text × Text)) : List UInt8 :=
  unescape head ++ rest.flatMap fun e => Utf8.encode e.1 ++ unescape e.2

theorem bytesOf_cons {rest : List (Text × Text)}
    (h : unescape (c :: head) = String.utf8EncodeChar c ++ unescape head) :
    bytesOf (c :: head) rest = String.utf8EncodeChar c ++ bytesOf head rest := by
  rw [bytesOf, h, List.append_assoc]
  rfl

theorem scan_eq_bytesOf (s : Text) :
    scan s = bytesOf (reservedPieces s).1 (reservedPieces s).2 := by
  fun_induction scan s with
  | case1 a b s hr ih =>
    rw [reservedPieces, if_pos hr, ih]
    simp [bytesOf, unescape]
  | case2 a b s hr y x hb ha ih =>
    rw [reservedPieces, if_neg hr, reservedPieces_cons (ne_percent_of_hexValue? ha),
      reservedPieces_cons (ne_percent_of_hexValue? hb), ih]
    exact congrArg (· ++ _) (unescape_escape ha hb).symm
  | case3 a b s hr hh ih =>
    have hl := (lone_of_not_hex fun x y hx hy => hh x y hx hy).of_initial
      (fst_reservedPieces_initial (a :: b :: s))
    rw [reservedPieces, if_neg hr, ih]
    exact (bytesOf_cons hl.unescape).symm
  | case4 c s hc ih =>
    rw [reservedPieces, ih]
    · refine (bytesOf_cons ?_).symm
      by_cases hp : c = '%'
      · subst hp
        have hl : Lone s := fun a b t ht => (hc a b t rfl ht).elim
        exact (hl.of_initial (fst_reservedPieces_initial s)).unescape
      · exact unescape_cons hp _
    · exact hc
  | case5 => rfl

theorem decodePieces?_cons (e : Text × Text) (rest : List (Text × Text)) :
    decodePieces? head (e :: rest) =
      (decode? head).bind fun x => (decodePieces? e.2 rest).map fun y => x ++ (e.1 ++ y) := by
  unfold decodePieces?
  simp only [List.mapM_cons, Option.bind_eq_bind, Option.pure_def]
  cases decode? head with
  | none => rfl
  | some x =>
    cases decode? e.2 with
    | none => rfl
    | some y => cases (rest.mapM fun e => (decode? e.2).map (e.1 ++ ·)) <;> simp

theorem decodePieces?_eq {rest : List (Text × Text)} (h : ∀ e ∈ rest, e.1 ≠ []) :
    decodePieces? head rest = Utf8.decode? (bytesOf head rest) := by
  induction rest generalizing head with
  | nil => simp [decodePieces?, bytesOf, decode?]
  | cons e rest ih =>
    rw [List.forall_mem_cons] at h
    have hb : bytesOf head (e :: rest) = unescape head ++ (Utf8.encode e.1 ++ bytesOf e.2 rest) := by
      simp [bytesOf]
    rw [decodePieces?_cons, ih h.2, hb, Utf8.decode?_append_encode h.1, decode?]

theorem ne_nil_of_mem_reservedPieces {e : Text × Text} (h : e ∈ (reservedPieces s).2) : e.1 ≠ [] := by
  fun_induction reservedPieces s with
  | case1 a b s hr head rest hp ih =>
    rcases List.mem_cons.1 h with rfl | h
    · simp
    · exact ih (hp ▸ h)
  | case2 a b s hr ih => exact ih h
  | case3 c s hc ih => exact ih h
  | case4 => exact absurd h List.not_mem_nil

/-- An address is decoded in one pass, if the bytes are UTF-8, and is else left as it is. -/
theorem decodeUri_eq_scan (s : Text) : decodeUri s = (Utf8.decode? (scan s)).getD s := by
  rw [scan_eq_bytesOf, ← decodePieces?_eq fun _ => ne_nil_of_mem_reservedPieces]
  rfl

theorem hexValue?_slash : hexValue? '/' = none := by decide

theorem scan_append_slash (a b : Text) :
    scan (a ++ '/' :: b) = scan a ++ (Utf8.encode ['/'] ++ scan b) := by
  fun_induction scan a with
  | case1 x y a hr ih =>
    rw [List.cons_append, List.cons_append, List.cons_append, scan, if_pos hr, ih, List.append_assoc]
  | case2 x y a hr n m hy hx ih =>
    rw [List.cons_append, List.cons_append, List.cons_append, scan, if_neg hr, hx, hy, ih]
    rfl
  | case3 x y a hr hh ih =>
    have hl : Lone (x :: y :: (a ++ '/' :: b)) := lone_of_not_hex fun m n hm hn => hh m n hm hn
    rw [List.cons_append, List.append_assoc, ← ih]
    exact hl.scan
  | case4 c a hc ih =>
    rw [List.cons_append, List.append_assoc, ← ih]
    by_cases hp : c = '%'
    · subst hp
      -- of the two characters behind the percent sign one is the slash
      refine Lone.scan fun m n t ht => ?_
      match a with
      | [] => exact .inl ((List.cons.inj ht).1 ▸ hexValue?_slash)
      | [d] => exact .inr ((List.cons.inj (List.cons.inj ht).2).1 ▸ hexValue?_slash)
      | d :: e :: a => exact (hc d e a rfl rfl).elim
    · exact scan_cons hp _
  | case5 => exact scan_cons (by decide) b

theorem decodeUri_append_slash (a b : Text) : decodeUri (a ++ '/' :: b) =
    ((Utf8.decode? (scan a)).bind fun x => (Utf8.decode? (scan b)).map fun y => x ++ '/' :: y).getD
      (a ++ '/' :: b) := by
  rw [decodeUri_eq_scan, scan_append_slash, Utf8.decode?_append_encode (by simp)]
  rfl

theorem decodeUri_append_singleton (a : Text) : decodeUri (a ++ ['/']) = decodeUri a ++ ['/'] := by
  rw [decodeUri_append_slash, decodeUri_eq_scan]
  cases Utf8.decode? (scan a) <;> rfl

theorem scan_eq_nil (h : scan s = []) : s = [] := by
  revert h
  fun_cases scan s <;> simp_all [Utf8.encode_cons]

theorem exists_last_slash (h : '/' ∈ s) : ∃ a b, s = a ++ '/' :: b ∧ '/' ∉ b := by
  obtain ⟨u, v, huv, hu⟩ := List.eq_append_cons_of_mem (List.mem_reverse.2 h)
  refine ⟨v.reverse, u.reverse, ?_, by simpa using hu⟩
  rw [← List.reverse_reverse s, huv]
  simp

theorem getLast?_of_not_mem (h : '/' ∉ s) : s.getLast? ≠ some '/' :=
  fun hl => h (List.mem_of_getLast? hl)

/-- No slash comes to the end of an address. -/
theorem getLast?_decodeUri (h : s.getLast? ≠ some '/') : (decodeUri s).getLast? ≠ some '/' := by
  have free : ∀ {t : Text}, '/' ∉ t → '/' ∉ decodeUri t := fun {t} ht => by
    rwa [← List.count_eq_zero, count_slash_decodeUri, List.count_eq_zero]
  by_cases hs : '/' ∈ s
  · obtain ⟨a, b, rfl, hb⟩ := exists_last_slash hs
    rw [decodeUri_append_slash]
    cases ha : Utf8.decode? (scan a) with
    | none => exact h
    | some x =>
      cases hd : Utf8.decode? (scan b) with
      | none => exact h
      | some y =>
        have hy : decodeUri b = y := by rw [decodeUri_eq_scan, hd, Option.getD_some]
        obtain ⟨c, y, rfl⟩ : ∃ c z, y = c :: z := by
          apply List.exists_cons_of_ne_nil
          rintro rfl
          obtain rfl := scan_eq_nil (Utf8.decode?_eq_some_iff.1 hd)
          simp at h
        have := getLast?_of_not_mem (hy ▸ free hb)
        simpa [List.getLast?_append] using this
  · exact getLast?_of_not_mem (free hs)

theorem escapeChar_of_lt (h : c.toNat < 128) : escapeChar c = escapeByte (UInt8.ofNat c.toNat) := by
  rw [escapeChar, Utf8.encodeChar_of_lt h, List.flatMap_singleton]

theorem isReservedEscape_iff :
    isReservedEscape a b ↔ ∃ c, reserved c ∧ Caseless (escapeChar c) ['%', a, b] := by
  have value : ∀ n < 256, (Char.ofNat n).toNat = n := by decide +kernel
  constructor
  · intro h
    unfold isReservedEscape at h
    split at h
    · next x y ha hb =>
      have hx := (toUpper_of_hexValue? ha).1
      have hy := (toUpper_of_hexValue? hb).1
      have hn : (Char.ofNat (16 * x + y)).toNat = 16 * x + y := value _ (by omega)
      refine ⟨_, h, ?_⟩
      rw [escapeChar_of_lt (lt_of_reserved h), hn]
      exact caseless_escapeByte ha hb
    · exact nomatch h
  · rintro ⟨c, hc, h⟩
    have hlt := lt_of_reserved hc
    rw [escapeChar_of_lt hlt, ← List.append_nil (escapeByte _)] at h
    obtain ⟨x, y, q, he, ha, hb, -⟩ := h.exists_escape
    obtain ⟨-, rfl, rfl, -⟩ : '%' = '%' ∧ a = x ∧ b = y ∧ [] = q := by simpa using he
    rw [isReservedEscape, ha, hb, Utf8.toNat_ofNat (by omega)]
    simpa [Nat.div_add_mod] using hc

/-- Decoding is one pass from left to right, unless the bytes of the pass are no UTF-8, and then it
changes nothing. Either way the reserved characters that stand for themselves stay those that they were,
in their order, and the escapes of such characters are kept in either case. -/
theorem decodeUri_one_pass (s : Text) :
    (∀ t, scan s = Utf8.encode t → decodeUri s = t) ∧
      ((∀ t, scan s ≠ Utf8.encode t) → decodeUri s = s) ∧
      (decodeUri s).filter reserved = s.filter reserved ∧
      ∀ a b, isReservedEscape a b ↔ ∃ c, reserved c ∧ Caseless (escapeChar c) ['%', a, b] := by
  refine ⟨fun t h => ?_, fun h => ?_, filter_reserved_decodeUri s, fun _ _ => isReservedEscape_iff⟩
  · rw [decodeUri_eq_scan, h, Utf8.decode?_encode]
    rfl
  · have hd : Utf8.decode? (scan s) = none :=
      Option.eq_none_iff_forall_ne_some.2 fun t ht => h t (Utf8.decode?_eq_some_iff.1 ht)
    rw [decodeUri_eq_scan, hd]
    rfl

/-- An escape that a reserved one follows, and a percent sign that starts none. -/
example : decodeUri ['%', '%', '2', 'f', '%', '4', '1', '%', '2'] = ['%', '%', '2', 'f', 'A', '%', '2'] := by
  decide +kernel

end Percent
end Routing
