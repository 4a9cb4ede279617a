import Routing.Proofs.Query.RoundTrip

/-! Queries that were read from a text. All their lists have a name and an item, so nothing keeps them
from coming back from their own text but a flag that is named like a list. -/

namespace Routing.Query

variable {q : Query} {key : Text}

def Listed (q : Query) : Prop := ∀ key ts, q.find? key = some (.multiple ts) → key ≠ [] ∧ ts ≠ []

namespace Listed

theorem insert_single (h : q.Listed) (key t : Text) : Listed (q.insert key (.single t)) := by
  intro k ts hk
  rw [Dict.find?_insert] at hk
  split_ifs at hk
  · exact nomatch hk
  · exact h k ts hk

theorem addItem (h : q.Listed) (hkey : key ≠ []) (t : Text) : Listed (q.addItem key t) := by
  intro k ts hk
  rw [Query.addItem, Dict.find?_insert] at hk
  split_ifs at hk with he
  · refine ⟨he ▸ hkey, ?_⟩
    rintro rfl
    -- an item that is pushed is in the list
    cases hv : q.find? key with
    | none => simp [hv, Value.push] at hk
    | some v => cases v <;> simp [hv, Value.push] at hk
  · exact h k ts hk

theorem addPiece (h : q.Listed) (piece : Text) : (q.addPiece piece).Listed := by
  unfold Query.addPiece
  split
  · exact h.insert_single _ _
  · split
    · next hn => exact h.addItem (listName?_eq_some.1 hn).1 _
    · exact h.insert_single _ _

theorem foldl_addPiece (h : q.Listed) (ps : List Text) : (ps.foldl Query.addPiece q).Listed := by
  induction ps generalizing q with
  | nil => exact h
  | cons p ps ih => exact ih (h.addPiece p)

end Listed

theorem listed_parse (s : Text) : (parse s).Listed := by
  have empty : Listed Dict.empty := fun _ _ hk => nomatch hk
  exact empty.foldl_addPiece _

/-- Of the values that could not be written as they are, reading leaves scalars only. -/
theorem readable_parse_iff (s : Text) : (parse s).Readable ↔
    ∀ name t, name ≠ [] → (parse s).find? (name ++ ['[', ']']) ≠ some (.single t) := by
  rw [readable_iff]
  refine ⟨fun h => h.2.1, fun h => ⟨fun key hk => ?_, h, fun ts hk => ?_⟩⟩
  · exact (listed_parse s _ _ hk).2 rfl
  · exact (listed_parse s _ _ hk).1 rfl

theorem readable_parse {s : Text}
    (h : ∀ p ∈ s.splitOn '&', '=' ∉ p → listName? (decodeForm p) = none) : (parse s).Readable :=
  Readable.empty.foldl_addPiece fun p hp => h p (List.mem_filter.1 hp).1

/-- A query that was read from a text is read again from its own text just when it holds no scalar
under the key of a list, and so whenever no flag of the text is named like a list. -/
theorem parse_render_parse (s : Text) :
    (parse ((parse s).render.dropLeading '?') = parse s ↔
      ∀ name t, name ≠ [] → (parse s).find? (name ++ ['[', ']']) ≠ some (.single t)) ∧
    ((∀ p ∈ s.splitOn '&', '=' ∉ p → listName? (decodeForm p) = none) →
      parse ((parse s).render.dropLeading '?') = parse s) := by
  refine ⟨?_, fun h => parse_render_of_readable (readable_parse h)⟩
  rw [← readable_parse_iff]
  constructor
  · intro h
    rw [← h]
    exact readable_parse_render _
  · exact parse_render_of_readable

/-- A flag that is named like a list comes back as the item of a list. -/
theorem parse_render_parse_flag :
    parse ((parse ['a', '[', ']']).render.dropLeading '?') ≠ parse ['a', '[', ']'] := by
  intro h
  have hf := congrArg (fun q => Dict.find? q ['a']) h
  exact absurd hf (by decide)

end Routing.Query
