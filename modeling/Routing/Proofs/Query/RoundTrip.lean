import Routing.Proofs.Dict
import Routing.Proofs.Query.Writing

/-! Queries written and read again. Reading a written piece puts a value under its key that could have
been written as it is, and a query of such values is built again piece by piece. So a query comes
back from its text just when all its values are of this kind. -/

namespace Routing.Query

open Percent (encodeComponent)

variable {q : Query} {key name t piece : Text} {v : Value} {ps : List Text}

theorem flatMap_plus_of_not_mem {s : Text} (h : '+' ∉ s) :
    (s.flatMap fun c => if c = '+' then ['%', '2', '0'] else [c]) = s := by
  induction s with
  | nil => rfl
  | cons c s ih =>
    rw [List.mem_cons, not_or] at h
    rw [List.flatMap_cons, if_neg (Ne.symm h.1), ih h.2]
    rfl

theorem decodeForm_encodeComponent_append (s : Text) (hp : '%' ∉ t) (hs : '+' ∉ t) :
    decodeForm (encodeComponent s ++ t) = s ++ t := by
  have hplus : '+' ∉ encodeComponent s ++ t := by
    rw [List.mem_append, not_or]
    exact ⟨not_mem_encodeComponent (by decide) (by decide) s, hs⟩
  have hw : Percent.wellFormed (encodeComponent s ++ t) := by
    rw [encodeComponent, Percent.wellFormed_encodeWith_append (by decide)]
    exact Percent.wellFormed_of_not_mem hp
  have hd : Percent.decode? (encodeComponent s ++ t) = some (s ++ t) := by
    rw [Percent.decode?, encodeComponent, Percent.unescape_encodeWith_append (by decide),
      Percent.unescape_of_not_mem hp, ← Utf8.encode_append, Utf8.decode?_encode]
  simp only [decodeForm, flatMap_plus_of_not_mem hplus, hw, hd, if_true, Option.getD_some]

theorem decodeForm_encodeComponent (s : Text) : decodeForm (encodeComponent s) = s := by
  simpa using decodeForm_encodeComponent_append s (t := []) (by simp) (by simp)

theorem listName?_eq_some : listName? key = some name ↔ name ≠ [] ∧ key = name ++ ['[', ']'] := by
  constructor
  · intro h
    revert h
    fun_cases listName? key with
    | case1 c r hr =>
      rintro ⟨⟩
      refine ⟨by simp, ?_⟩
      rw [← List.reverse_reverse key, hr]
      simp
    | case2 => simp
  · rintro ⟨hn, rfl⟩
    obtain ⟨s, c, rfl⟩ := (List.eq_nil_or_concat' name).resolve_left hn
    simp [listName?]

theorem listName?_eq_none : listName? key = none ↔ ∀ s ≠ [], key ≠ s ++ ['[', ']'] := by
  rw [Option.eq_none_iff_forall_ne_some]
  simp only [ne_eq, listName?_eq_some, not_and]

theorem addPiece_single (q : Query) (t : Text) (h : listName? key = none) :
    q.addPiece (encodeComponent key ++ '=' :: encodeComponent t) = q.insert key (.single t) := by
  have hc := Text.cut_append_sep (not_mem_encodeComponent (c := '=') (by decide) (by decide) key)
    (encodeComponent t)
  simp only [addPiece, hc, decodeForm_encodeComponent, h]

theorem addPiece_item (q : Query) (t : Text) (h : key ≠ []) :
    q.addPiece (encodeComponent key ++ '[' :: ']' :: '=' :: encodeComponent t) = q.addItem key t := by
  have hm : '=' ∉ encodeComponent key ++ ['[', ']'] := by
    simp [not_mem_encodeComponent (c := '=') (by decide) (by decide) key]
  have hc := Text.cut_append_sep hm (encodeComponent t)
  rw [List.append_assoc] at hc
  have hk : decodeForm (encodeComponent key ++ ['[', ']']) = key ++ ['[', ']'] :=
    decodeForm_encodeComponent_append key (by decide) (by decide)
  have hn : listName? (key ++ ['[', ']']) = some key := listName?_eq_some.2 ⟨h, rfl⟩
  simp only [List.cons_append, List.nil_append] at hc
  simp only [addPiece, hc, hk, hn, decodeForm_encodeComponent]

/-- The values that reading a written piece can leave under a key. -/
def Value.Readable (key : Text) : Value → Prop
  | single _ => listName? key = none
  | multiple ts => key ≠ [] ∧ ts ≠ []

def Readable (q : Query) : Prop := ∀ key v, q.find? key = some v → v.Readable key

theorem readable_iff : q.Readable ↔
    (∀ key, q.find? key ≠ some (.multiple [])) ∧
      (∀ name t, name ≠ [] → q.find? (name ++ ['[', ']']) ≠ some (.single t)) ∧
      ∀ ts, q.find? [] ≠ some (.multiple ts) := by
  constructor
  · intro h
    refine ⟨fun key hk => (h key _ hk).2 rfl, fun name t hn hk => ?_, fun ts hk => (h [] _ hk).1 rfl⟩
    exact listName?_eq_none.1 (h _ _ hk) name hn rfl
  · rintro ⟨hempty, hname, hroot⟩ key v hv
    cases v with
    | single t =>
      refine listName?_eq_none.2 ?_
      rintro s hs rfl
      exact hname s t hs hv
    | multiple ts =>
      refine ⟨?_, ?_⟩
      · rintro rfl
        exact hroot ts hv
      · rintro rfl
        exact hempty key hv

namespace Readable

theorem insert (h : q.Readable) (hv : v.Readable key) : Readable (q.insert key v) := by
  intro k w hw
  rw [Dict.find?_insert] at hw
  split_ifs at hw with hk
  · obtain rfl := Option.some.inj hw
    rwa [hk]
  · exact h k w hw

theorem addItem (h : q.Readable) (hk : key ≠ []) (t : Text) : Readable (q.addItem key t) := by
  apply h.insert
  cases q.find? key with
  | none => exact ⟨hk, by simp⟩
  | some v => cases v <;> exact ⟨hk, by simp⟩

/-- A piece with a value leaves a readable query readable, whatever its key and value are, and so does
a flag that is not named like a list. -/
theorem addPiece (h : q.Readable) (hp : '=' ∉ piece → listName? (decodeForm piece) = none) :
    (q.addPiece piece).Readable := by
  by_cases he : '=' ∈ piece
  · obtain ⟨a, b, rfl, ha⟩ := List.eq_append_cons_of_mem he
    simp only [Query.addPiece, Text.cut_append_sep ha b]
    cases hn : listName? (decodeForm a) with
    | none => exact h.insert hn
    | some name => exact h.addItem (listName?_eq_some.1 hn).1 _
  · simp only [Query.addPiece, Text.cut_of_not_mem he]
    exact h.insert (hp he)

theorem foldl_addPiece (h : q.Readable)
    (hp : ∀ p ∈ ps, '=' ∉ p → listName? (decodeForm p) = none) :
    (ps.foldl Query.addPiece q).Readable := by
  induction ps generalizing q with
  | nil => exact h
  | cons p ps ih =>
    rw [List.forall_mem_cons] at hp
    exact ih (h.addPiece hp.1) hp.2

theorem empty : Readable Dict.empty := fun _ _ hv => nomatch hv

end Readable

theorem addItem_insert_multiple (q : Query) (key t : Text) (ts : List Text) :
    addItem (q.insert key (.multiple ts)) key t = q.insert key (.multiple (ts ++ [t])) := by
  rw [addItem, Dict.find?_insert, if_pos rfl, Dict.insert_insert]
  rfl

theorem foldl_addItem (q : Query) (key : Text) (ts us : List Text) :
    us.foldl (fun q u => addItem q key u) (q.insert key (.multiple ts)) =
      q.insert key (.multiple (ts ++ us)) := by
  induction us generalizing ts with
  | nil => rw [List.append_nil, List.foldl_nil]
  | cons u us ih => rw [List.foldl_cons, addItem_insert_multiple, ih, List.append_assoc]; rfl

theorem foldl_pieces (hv : v.Readable key) (hk : q.find? key = none) :
    (v.pieces key).foldl addPiece q = q.insert key v := by
  cases v with
  | single t => exact addPiece_single q t hv
  | multiple ts =>
    obtain ⟨hkey, hts⟩ := hv
    obtain ⟨u, us, rfl⟩ := List.exists_cons_of_ne_nil hts
    have first : q.addItem key u = q.insert key (.multiple [u]) := by
      rw [addItem, hk]
      rfl
    simp only [Value.pieces, List.foldl_map, addPiece_item _ _ hkey]
    rw [List.foldl_cons, first, foldl_addItem, List.singleton_append]

theorem foldl_flatMap_pieces {es : List (Text × Value)} (hv : ∀ e ∈ es, e.2.Readable e.1)
    (hk : ∀ e ∈ es, q.find? e.1 = none) (hd : es.Pairwise fun a b => a.1 < b.1) :
    (es.flatMap fun e => e.2.pieces e.1).foldl addPiece q =
      es.foldl (fun q e => q.insert e.1 e.2) q := by
  induction es generalizing q with
  | nil => rfl
  | cons e es ih =>
    rw [List.forall_mem_cons] at hv hk
    rw [List.pairwise_cons] at hd
    rw [List.flatMap_cons, List.foldl_append, foldl_pieces hv.1 hk.1, List.foldl_cons]
    refine ih hv.2 (fun f hf => ?_) hd.2
    have hne : f.1 ≠ e.1 := by
      intro h
      exact List.lt_irrefl e.1 (h ▸ hd.1 f hf)
    rw [Dict.find?_insert, if_neg hne, hk.2 f hf]

theorem sortEntries_of_pairwise {as : List (Text × Option Value)}
    (h : as.Pairwise fun a b => a.1 < b.1) : sortEntries as = as := by
  refine sortStable_of_pairwise (h.imp fun {a b} hab => ?_)
  simpa using List.lt_asymm hab

theorem render_eq (q : Query) : q.render = joinPieces (q.entries.flatMap fun e => e.2.pieces e.1) := by
  rw [render, write, sortEntries_of_pairwise (List.pairwise_map.2 q.sorted), List.flatMap_map]
  rfl

theorem parse_joinPieces (hn : ∀ p ∈ ps, p ≠ []) (hs : ∀ p ∈ ps, '&' ∉ p) :
    parse ((joinPieces ps).dropLeading '?') = ps.foldl addPiece Dict.empty := by
  cases ps with
  | nil => rfl
  | cons p ps =>
    have hf : (p :: ps).filter (! ·.isEmpty) = p :: ps :=
      List.filter_eq_self.2 fun t ht => by simpa using hn t ht
    rw [joinPieces, Text.dropLeading, if_pos rfl, parse, List.splitOn_intercalate _ hs (by simp), hf]
    simp

theorem parse_render (q : Query) : parse (q.render.dropLeading '?') =
    (q.entries.flatMap fun e => e.2.pieces e.1).foldl addPiece Dict.empty := by
  rw [render_eq]
  apply parse_joinPieces
  · intro p hp
    obtain ⟨e, -, hp⟩ := List.mem_flatMap.1 hp
    exact List.ne_nil_of_mem (eq_mem_pieces hp)
  · intro p hp
    obtain ⟨e, -, hp⟩ := List.mem_flatMap.1 hp
    exact not_mem_pieces (by decide) (by decide) (by decide) hp

theorem readable_parse_render (q : Query) : (parse (q.render.dropLeading '?')).Readable := by
  rw [parse_render]
  apply Readable.empty.foldl_addPiece
  intro p hp he
  obtain ⟨e, -, hp⟩ := List.mem_flatMap.1 hp
  exact absurd (eq_mem_pieces hp) he

/-- A readable query is read back from its own text. -/
theorem parse_render_of_readable (h : q.Readable) : parse (q.render.dropLeading '?') = q := by
  rw [parse_render,
    foldl_flatMap_pieces (fun e he => h _ _ (Dict.find?_eq_some_iff.2 he)) (fun _ _ => rfl) q.sorted]
  exact q.ofList_entries

/-- A query is read back from its own text unless it holds an empty list, a scalar under the key of
a list, or a list without a name. -/
theorem parse_render_eq_iff (q : Query) : parse (q.render.dropLeading '?') = q ↔
    (∀ key, q.find? key ≠ some (.multiple [])) ∧
      (∀ name t, name ≠ [] → q.find? (name ++ ['[', ']']) ≠ some (.single t)) ∧
      ∀ ts, q.find? [] ≠ some (.multiple ts) := by
  rw [← readable_iff]
  constructor
  · intro h
    rw [← h]
    exact readable_parse_render q
  · exact parse_render_of_readable

end Routing.Query
