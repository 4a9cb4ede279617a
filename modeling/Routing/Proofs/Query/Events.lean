import Routing.Proofs.Query.RoundTrip

/-! What a query string means for one key. A piece acts on a single key: it sets it to a scalar or adds
an item to its list. A scalar wipes out all that its key held before, so what is found under a key is
settled by the last scalar of the key and the items behind it. -/

namespace Routing.Query

open Percent (decode? hexValue? isHex isHex_iff ne_of_hexValue? unescape unescape_cons
  unescape_escape wellFormed wellFormed_cons)

variable {s : Text}

/-- What a piece does to its key. -/
structure Event where
  key : Text
  /-- Whether the value is one item of a list. Otherwise it is a scalar. -/
  item : Bool
  value : Text
  deriving DecidableEq

variable {es : List Event}

/-- Form decoding without a detour: `+` is a space, and a text that is malformed or no UTF-8 counts as
empty. -/
def formText (s : Text) : Text :=
  if wellFormed s then
    (decode? (s.map fun c => if c = '+' then ' ' else c)).getD []
  else []

namespace Event

/-- The event of a piece: a flag has no `=`, and a list has a name in front of `[]`. -/
def ofPiece (piece : Text) : Event :=
  let key := formText (piece.takeWhile (· ≠ '='))
  let value := formText ((piece.dropWhile (· ≠ '=')).drop 1)
  if '=' ∉ piece then ⟨key, false, ['t', 'r', 'u', 'e']⟩
  else if 2 < key.length ∧ ['[', ']'] <:+ key then ⟨key.take (key.length - 2), true, value⟩
  else ⟨key, false, value⟩

def apply (e : Event) (held : Option Value) : Value :=
  if e.item then .push held e.value else .single e.value

def run (held : Option Value) (es : List Event) : Option Value :=
  es.foldl (fun held e => some (e.apply held)) held

end Event

/-- The events of a query string, in order. Pieces without text have none. -/
def events (s : Text) : List Event :=
  ((s.splitOn '&').filter (! ·.isEmpty)).map Event.ofPiece

theorem wellFormed_flatMap_plus (s : Text) :
    wellFormed (s.flatMap fun c => if c = '+' then ['%', '2', '0'] else [c]) = wellFormed s := by
  have plus : isHex '+' = false := by decide
  have percent : isHex '%' = false := by decide
  fun_induction wellFormed s with
  | case1 h l s ih =>
    by_cases hh : h = '+'
    · simp [hh, wellFormed, percent, plus]
    · by_cases hl : l = '+'
      · simp [hh, hl, wellFormed, percent, plus]
      · simp [hh, hl, wellFormed, ih]
  | case2 s hs =>
    -- one character at most stands behind the percent sign
    rcases s with _ | ⟨c, _ | ⟨l, s⟩⟩
    · rfl
    · by_cases hc : c = '+' <;> simp [hc, wellFormed, percent]
    · exact (hs c l s rfl).elim
  | case3 c s _ hc ih =>
    rw [List.flatMap_cons]
    split_ifs with h
    · have h2 : isHex '2' := by decide
      have h0 : isHex '0' := by decide
      simp [wellFormed, h2, h0, ih]
    · rw [List.singleton_append, wellFormed_cons hc, ih]
  | case4 => rfl

theorem unescape_flatMap_plus (h : wellFormed s) :
    unescape (s.flatMap fun c => if c = '+' then ['%', '2', '0'] else [c]) =
      unescape (s.map fun c => if c = '+' then ' ' else c) := by
  fun_induction wellFormed s with
  | case1 a b s ih =>
    simp only [Bool.and_eq_true, isHex_iff] at h
    obtain ⟨⟨⟨x, ha⟩, y, hb⟩, hs⟩ := h
    have plus : hexValue? '+' = none := by decide
    have hap := ne_of_hexValue? plus ha
    have hbp := ne_of_hexValue? plus hb
    simp only [List.flatMap_cons, List.map_cons, hap, hbp, if_false, List.singleton_append,
      Char.reduceEq]
    rw [unescape_escape ha hb, unescape_escape ha hb, ih hs]
  | case2 => cases h
  | case3 c s _ hc ih =>
    rw [List.flatMap_cons, List.map_cons]
    split_ifs with hp
    · have h2 : hexValue? '2' = some 2 := by decide
      have h0 : hexValue? '0' = some 0 := by decide
      have hb : String.utf8EncodeChar ' ' = [UInt8.ofNat (16 * 2 + 0)] := by decide
      rw [List.cons_append, List.cons_append, List.cons_append, List.nil_append,
        unescape_escape h2 h0, unescape_cons (by decide), hb, ih h]
      rfl
    · rw [List.singleton_append, unescape_cons hc, unescape_cons hc, ih h]
  | case4 => rfl

theorem decodeForm_eq_formText (s : Text) : decodeForm s = formText s := by
  simp only [decodeForm, formText, wellFormed_flatMap_plus]
  split_ifs with h
  · rw [decode?, unescape_flatMap_plus h, ← decode?]
  · rfl

theorem listName?_eq (key : Text) : listName? key =
    if 2 < key.length ∧ ['[', ']'] <:+ key then some (key.take (key.length - 2)) else none := by
  split_ifs with h
  · obtain ⟨hl, name, rfl⟩ := h
    have hn : name ≠ [] := by
      rintro rfl
      simp at hl
    exact listName?_eq_some.2 ⟨by simpa using hn, by simp⟩
  · refine listName?_eq_none.2 fun name hn hk => h ?_
    have := List.length_pos_iff.2 hn
    exact ⟨by simp [hk]; omega, name, hk.symm⟩

theorem find?_addPiece (q : Query) (piece k : Text) : (q.addPiece piece).find? k =
    if (Event.ofPiece piece).key = k then some ((Event.ofPiece piece).apply (q.find? k))
    else q.find? k := by
  have hq : q.addPiece piece = q.insert (Event.ofPiece piece).key
      ((Event.ofPiece piece).apply (q.find? (Event.ofPiece piece).key)) := by
    simp only [addPiece, Text.cut_eq, Event.ofPiece, decodeForm_eq_formText, listName?_eq]
    by_cases h : '=' ∈ piece
    · simp only [h, if_true, not_true_eq_false, if_false]
      split_ifs <;> rfl
    · simp only [h, if_false, not_false_eq_true, if_true]
      rfl
  rw [hq, Dict.find?_insert]
  by_cases hk : (Event.ofPiece piece).key = k
  · rw [if_pos hk.symm, if_pos hk, hk]
  · rw [if_neg (Ne.symm hk), if_neg hk]

theorem find?_foldl_addPiece (q : Query) (ps : List Text) (k : Text) :
    (ps.foldl addPiece q).find? k =
      Event.run (q.find? k) ((ps.map Event.ofPiece).filter (·.key = k)) := by
  induction ps generalizing q with
  | nil => rfl
  | cons p ps ih =>
    rw [List.foldl_cons, ih, find?_addPiece, List.map_cons, List.filter_cons]
    by_cases hk : (Event.ofPiece p).key = k
    · simp [hk, Event.run]
    · simp [hk]

/-- A key holds what its own events leave. -/
theorem find?_parse_eq_run (s k : Text) :
    (parse s).find? k = Event.run none ((events s).filter (·.key = k)) :=
  find?_foldl_addPiece Dict.empty _ k

namespace Event

variable {e : Event}

theorem run_cons (held : Option Value) (e : Event) (es : List Event) :
    run held (e :: es) = run (some (e.apply held)) es := rfl

theorem apply_item (held : Option Value) (h : e.item) : e.apply held = .push held e.value := if_pos h

theorem isSome_run {held : Option Value} : (run held es).isSome ↔ held.isSome ∨ es ≠ [] := by
  induction es generalizing held with
  | nil => simp [run]
  | cons e es ih =>
    rw [run_cons, ih]
    simp

theorem run_multiple (ts : List Text) (h : ∀ e ∈ es, e.item) :
    run (some (.multiple ts)) es = some (.multiple (ts ++ es.map value)) := by
  induction es generalizing ts with
  | nil => simp [run]
  | cons e es ih =>
    rw [List.forall_mem_cons] at h
    rw [run_cons, apply_item _ h.1, Value.push, ih _ h.2]
    simp

theorem run_single (t : Text) (h : ∀ e ∈ es, e.item) : run (some (.single t)) es =
    some (if es = [] then .single t else .multiple (t :: es.map value)) := by
  cases es with
  | nil => rfl
  | cons e es =>
    rw [List.forall_mem_cons] at h
    rw [run_cons, apply_item _ h.1, Value.push, run_multiple _ h.2]
    simp

theorem run_none (h0 : es ≠ []) (h : ∀ e ∈ es, e.item) :
    run none es = some (.multiple (es.map value)) := by
  obtain ⟨e, es, rfl⟩ := List.exists_cons_of_ne_nil h0
  rw [List.forall_mem_cons] at h
  rw [run_cons, apply_item _ h.1, Value.push, run_multiple _ h.2]
  simp

theorem run_scalar (held : Option Value) (before after : List Event) (h : e.item = false) :
    run held (before ++ e :: after) = run (some (.single e.value)) after := by
  simp [run, apply, h]

theorem exists_last_scalar (h : ∃ e ∈ es, e.item = false) :
    ∃ before e after, es = before ++ e :: after ∧ e.item = false ∧ ∀ f ∈ after, f.item := by
  induction es with
  | nil => simp at h
  | cons f es ih =>
    by_cases hs : ∃ e ∈ es, e.item = false
    · obtain ⟨before, e, after, rfl, he, ha⟩ := ih hs
      exact ⟨f :: before, e, after, rfl, he, ha⟩
    · obtain ⟨e, he, hi⟩ := h
      rcases List.mem_cons.1 he with rfl | he
      · exact ⟨[], e, es, rfl, hi, by simpa using hs⟩
      · exact absurd ⟨e, he, hi⟩ hs

end Event

/-- A key is found just when it has an event. It holds the value of its last scalar, with the items that
follow as the rest of a list, or without a scalar the list of its items. The pieces of other keys do
not count, wherever they stand. -/
theorem find?_parse (s k : Text) :
    let es := (events s).filter (·.key = k)
    (((parse s).find? k).isSome ↔ ∃ e ∈ events s, e.key = k) ∧
      ((∃ e ∈ es, e.item = false) → ∃ before e after,
        es = before ++ e :: after ∧ e.item = false ∧ (∀ f ∈ after, f.item) ∧
          (parse s).find? k = some (if after = [] then .single e.value
            else .multiple (e.value :: after.map Event.value))) ∧
      (es ≠ [] → (∀ e ∈ es, e.item) →
        (parse s).find? k = some (.multiple (es.map Event.value))) ∧
      ∀ t, (events t).filter (·.key = k) = es → (parse t).find? k = (parse s).find? k := by
  intro es
  have hrun : (parse s).find? k = Event.run none es := find?_parse_eq_run s k
  refine ⟨?_, fun h => ?_, fun h0 h => ?_, fun t ht => ?_⟩
  · rw [hrun, Event.isSome_run]
    simp [es]
  · obtain ⟨before, e, after, hes, he, ha⟩ := Event.exists_last_scalar h
    refine ⟨before, e, after, hes, he, ha, ?_⟩
    rw [hrun, hes, Event.run_scalar _ _ _ he, Event.run_single _ ha]
  · rw [hrun, Event.run_none h0 h]
  · rw [find?_parse_eq_run, ht, hrun]

/-- The second scalar wipes out the list, and a piece of another key stands among the items. -/
example : (parse "a[]=0&a=1&a[]=2&b&a[]=3".toList).find? ['a'] =
    some (.multiple [['1'], ['2'], ['3']]) := by decide +kernel

end Routing.Query
