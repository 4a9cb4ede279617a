import Routing.Percent.Uri
import Routing.Proofs.Percent.Escapes

/-! Decoding of a whole address. Without escapes of reserved characters the address is decoded in one
piece. With them or without, decoding neither makes nor loses a reserved character that stands for
itself. -/

namespace Routing.Percent

variable {s t head : Text} {c a b : Char}

/-- The values that the escapes of a text stand for, in order. -/
def escapes : Text → List Nat
  | '%' :: h :: l :: s =>
    match hexValue? h, hexValue? l with
    | some x, some y => (16 * x + y) :: escapes s
    | _, _ => escapes (h :: l :: s)
  | _ :: s => escapes s
  | [] => []

theorem escapes_cons (h : c ≠ '%') (s : Text) : escapes (c :: s) = escapes s := by
  rw [escapes]
  intro _ _ _ hc
  exact absurd hc h

theorem escapes_escape {x y : Nat} (ha : hexValue? a = some x) (hb : hexValue? b = some y)
    (s : Text) : escapes ('%' :: a :: b :: s) = (16 * x + y) :: escapes s := by
  rw [escapes, ha, hb]

theorem escapes_percent_subset (s : Text) : escapes s ⊆ escapes ('%' :: s) := by
  intro n hn
  match s with
  | [] => exact hn
  | [c] => simp [escapes] at hn
  | a :: b :: t =>
    rw [escapes]
    cases ha : hexValue? a with
    | none => exact hn
    | some x =>
      cases hb : hexValue? b with
      | none => exact hn
      | some y =>
        rw [escapes_cons (ne_percent_of_hexValue? ha), escapes_cons (ne_percent_of_hexValue? hb)] at hn
        exact List.mem_cons_of_mem _ hn

theorem reservedPieces_of_escapes (h : ∀ n ∈ escapes s, reserved (Char.ofNat n) = false) :
    reservedPieces s = (s, []) := by
  fun_induction reservedPieces s with
  | case1 a b s hr head rest hp ih =>
    exfalso
    unfold isReservedEscape at hr
    split at hr
    · next x y ha hb =>
      rw [escapes_escape ha hb, List.forall_mem_cons] at h
      simp [h.1] at hr
    · exact nomatch hr
  | case2 a b s hr ih => rw [ih fun n hn => h n (escapes_percent_subset _ hn)]; rfl
  | case3 c s hc ih =>
    rw [ih]
    · rfl
    · intro n hn
      apply h n
      by_cases hp : c = '%'
      · exact hp ▸ escapes_percent_subset s hn
      · rwa [escapes_cons hp]
  | case4 => rfl

theorem decodeUri_of_escapes (h : ∀ n ∈ escapes s, reserved (Char.ofNat n) = false) :
    decodeUri s = decodeOrKeep s := by
  simp only [decodeUri, reservedPieces_of_escapes h, decodePieces?, decodeOrKeep]
  cases decode? s <;> simp

theorem escapes_of_not_mem (h : '%' ∉ s) : escapes s = [] := by
  induction s with
  | nil => rfl
  | cons c s ih =>
    rw [List.mem_cons, not_or] at h
    rw [escapes_cons (Ne.symm h.1), ih h.2]

theorem decodeUri_of_not_mem (h : '%' ∉ s) : decodeUri s = s := by
  rw [decodeUri_of_escapes (by simp [escapes_of_not_mem h]), decodeOrKeep, decode?_of_not_mem h]
  rfl

/-- The reserved characters among the bytes of a text. -/
def marks (bs : List UInt8) : Text := (bs.map fun b => Char.ofNat b.toNat).filter reserved

theorem marks_append (bs cs : List UInt8) : marks (bs ++ cs) = marks bs ++ marks cs := by
  simp [marks]

theorem marks_cons (b : UInt8) (bs : List UInt8) : marks (b :: bs) = marks [b] ++ marks bs :=
  marks_append [b] bs

theorem marks_singleton {b : UInt8} (h : reserved (Char.ofNat b.toNat) = false) : marks [b] = [] := by
  simp [marks, h]

/-- Reserved characters are ASCII, so no byte of another character is one of them. -/
theorem marks_ofNat {n : Nat} (h : 128 ≤ n) (h' : n < 256) : marks [UInt8.ofNat n] = [] := by
  have all : ∀ n < 256, 128 ≤ n → reserved (Char.ofNat n) = false := by decide +kernel
  apply marks_singleton
  rw [Utf8.toNat_ofNat h']
  exact all n h' h

theorem lt_of_reserved (h : reserved c) : c.toNat < 128 := by
  have all : ∀ d ∈ ['#', '$', '&', '+', ',', '/', ':', ';', '=', '?', '@'], d.toNat < 128 := by
    simp
  exact all c (by simpa [reserved] using h)

theorem marks_utf8EncodeChar (c : Char) : marks (String.utf8EncodeChar c) = [c].filter reserved := by
  have e : c.val.toNat = c.toNat := rfl
  by_cases h : c.toNat ≤ 127
  · rw [Utf8.encodeChar_of_lt (Nat.lt_succ_of_le h), marks, List.map_singleton,
      Utf8.toNat_ofNat (by omega), Char.ofNat_toNat]
  · have hr : reserved c = false := by
      by_contra hr
      have := lt_of_reserved (Bool.not_eq_false _ ▸ hr)
      omega
    rw [List.filter_singleton, hr]
    unfold String.utf8EncodeChar
    simp only [e, h, if_false]
    split_ifs
    · rw [marks_cons, marks_ofNat (by omega) (by omega), marks_ofNat (by omega) (by omega)]
      rfl
    · rw [marks_cons, marks_ofNat (by omega) (by omega), marks_cons, marks_ofNat (by omega) (by omega),
        marks_ofNat (by omega) (by omega)]
      rfl
    · rw [marks_cons, marks_ofNat (by omega) (by omega), marks_cons, marks_ofNat (by omega) (by omega),
        marks_cons, marks_ofNat (by omega) (by omega), marks_ofNat (by omega) (by omega)]
      rfl

theorem marks_encode (s : Text) : marks (Utf8.encode s) = s.filter reserved := by
  induction s with
  | nil => rfl
  | cons c s ih =>
    rw [Utf8.encode_cons, marks_append, marks_utf8EncodeChar, ih, ← List.filter_append]
    rfl

theorem not_reserved_of_hexValue? {x : Nat} (h : hexValue? c = some x) : reserved c = false := by
  obtain ⟨n, hn, rfl⟩ := eq_ofNat_of_hexValue? h
  have all : ∀ n < 128, (hexValue? (Char.ofNat n)).isSome → reserved (Char.ofNat n) = false := by
    decide +kernel
  exact all n hn (by simp [h])

theorem marks_unescape_cons (h : c ≠ '%') (s : Text) :
    marks (unescape (c :: s)) = [c].filter reserved ++ marks (unescape s) := by
  rw [unescape_cons h, marks_append, marks_utf8EncodeChar]

theorem marks_unescape_hex {x : Nat} (h : hexValue? c = some x) (s : Text) :
    marks (unescape (c :: s)) = marks (unescape s) := by
  rw [marks_unescape_cons (ne_percent_of_hexValue? h)]
  simp [not_reserved_of_hexValue? h]

theorem marks_unescape_percent (h : ∀ a b t, s = a :: b :: t → isReservedEscape a b = false) :
    marks (unescape ('%' :: s)) = marks (unescape s) := by
  have plain : ∀ t, marks (String.utf8EncodeChar '%' ++ unescape t) = marks (unescape t) := by
    intro t
    rw [marks_append, marks_utf8EncodeChar]
    rfl
  match s with
  | [] => exact plain []
  | [c] => exact plain [c]
  | a :: b :: t =>
    rw [unescape]
    split
    · next x y ha hb =>
      have hr := h a b t rfl
      rw [isReservedEscape, ha, hb] at hr
      have hx := (toUpper_of_hexValue? ha).1
      have hy := (toUpper_of_hexValue? hb).1
      have hn := Utf8.toNat_ofNat (show 16 * x + y < 256 by omega)
      rw [marks_cons, marks_singleton (by rwa [hn]), marks_unescape_hex ha, marks_unescape_hex hb,
        List.nil_append]
    · exact plain _

theorem fst_reservedPieces_initial (s : Text) : (reservedPieces s).1 <+: s := by
  fun_induction reservedPieces s with
  | case1 a b s hr head rest hp ih => exact List.nil_prefix
  | case2 a b s hr ih => exact List.cons_prefix_cons.2 ⟨rfl, ih⟩
  | case3 c s hc ih => exact List.cons_prefix_cons.2 ⟨rfl, ih⟩
  | case4 => exact List.nil_prefix

/-- A cut of a text into pieces, between which stand escapes, so that the marks of each piece and of
the text are those that stand for themselves. -/
structure Cut (s head : Text) (rest : List (Text × Text)) : Prop where
  marks_head : marks (unescape head) = head.filter reserved
  marks_rest : ∀ e ∈ rest, e.1.filter reserved = [] ∧ marks (unescape e.2) = e.2.filter reserved
  filter_eq : s.filter reserved = head.filter reserved ++ rest.flatMap fun e => e.2.filter reserved

theorem filter_escape_of_isReservedEscape (h : isReservedEscape a b) :
    ['%', a, b].filter reserved = [] := by
  unfold isReservedEscape at h
  split at h
  · next x y ha hb =>
    have hp : reserved '%' = false := by decide
    simp [hp, not_reserved_of_hexValue? ha, not_reserved_of_hexValue? hb]
  · exact nomatch h

theorem Cut.cons {rest : List (Text × Text)} (h : Cut s head rest)
    (hm : marks (unescape (c :: head)) = [c].filter reserved ++ marks (unescape head)) :
    Cut (c :: s) (c :: head) rest where
  marks_head := by rw [hm, h.marks_head, ← List.filter_append, List.singleton_append]
  marks_rest := h.marks_rest
  filter_eq := by
    rw [← List.singleton_append, List.filter_append, h.filter_eq, ← List.append_assoc,
      ← List.filter_append, List.singleton_append]

theorem cut_reservedPieces (s : Text) : Cut s (reservedPieces s).1 (reservedPieces s).2 := by
  fun_induction reservedPieces s with
  | case1 a b s hr head rest hp ih =>
    rw [hp] at ih
    have he := filter_escape_of_isReservedEscape hr
    refine ⟨rfl, List.forall_mem_cons.2 ⟨⟨he, ih.marks_head⟩, ih.marks_rest⟩, ?_⟩
    have hs : '%' :: a :: b :: s = ['%', a, b] ++ s := rfl
    rw [hs, List.filter_append, he, ih.filter_eq]
    rfl
  | case2 a b s hr ih =>
    apply ih.cons
    refine marks_unescape_percent fun x y t ht => ?_
    obtain ⟨u, hu⟩ := fst_reservedPieces_initial (a :: b :: s)
    rw [ht, List.cons_append, List.cons_append, List.cons.injEq, List.cons.injEq] at hu
    rw [hu.1, hu.2.1]
    simpa using hr
  | case3 c s hc ih =>
    apply ih.cons
    by_cases hp : c = '%'
    · subst hp
      refine marks_unescape_percent fun x y t ht => ?_
      obtain ⟨u, hu⟩ := fst_reservedPieces_initial s
      rw [ht] at hu
      exact absurd hu.symm (hc x y (t ++ u) rfl)
    · exact marks_unescape_cons hp _
  | case4 => exact ⟨rfl, by simp, rfl⟩

theorem filter_of_decode? (h : decode? s = some t) : t.filter reserved = marks (unescape s) := by
  rw [Utf8.decode?_eq_some_iff.1 h, marks_encode]

theorem filter_flatten_of_mapM {rest : List (Text × Text)} {others : List Text}
    (h : ∀ e ∈ rest, e.1.filter reserved = [] ∧ marks (unescape e.2) = e.2.filter reserved)
    (ho : (rest.mapM fun e => (decode? e.2).map (e.1 ++ ·)) = some others) :
    others.flatten.filter reserved = rest.flatMap fun e => e.2.filter reserved := by
  induction rest generalizing others with
  | nil =>
    obtain rfl := Option.some.inj ho
    rfl
  | cons e rest ih =>
    rw [List.forall_mem_cons] at h
    simp only [List.mapM_cons, Option.bind_eq_bind, Option.bind_eq_some_iff, Option.map_eq_some_iff,
      Option.pure_def, Option.some.injEq] at ho
    obtain ⟨-, ⟨t, ht, rfl⟩, us, hu, rfl⟩ := ho
    rw [List.flatten_cons, List.filter_append, List.filter_append, h.1.1, filter_of_decode? ht, h.1.2,
      ih h.2 hu]
    rfl

/-- Decoding neither makes nor loses a reserved character. -/
theorem filter_reserved_decodeUri (s : Text) : (decodeUri s).filter reserved = s.filter reserved := by
  have hc := cut_reservedPieces s
  unfold decodeUri
  generalize reservedPieces s = pieces at hc
  obtain ⟨head, rest⟩ := pieces
  simp only
  cases hd : decodePieces? head rest with
  | none => rfl
  | some t =>
    simp only [decodePieces?, Option.bind_eq_bind, Option.bind_eq_some_iff, Option.pure_def,
      Option.some.injEq] at hd
    obtain ⟨first, hf, others, ho, rfl⟩ := hd
    rw [Option.getD_some, List.filter_append, hc.filter_eq, filter_of_decode? hf, hc.marks_head]
    rw [filter_flatten_of_mapM hc.marks_rest ho]

theorem count_slash_decodeUri (s : Text) : (decodeUri s).count '/' = s.count '/' := by
  rw [← List.count_filter (p := reserved) (by decide), filter_reserved_decodeUri,
    List.count_filter (by decide)]

end Routing.Percent
