import Routing.Dict
import Mathlib.Tactic

/-! Maps that are built pair by pair. The last pair of a key decides what is found under it. -/

namespace Routing.Dict

variable {α : Type} {d : Dict α} {l : List (Text × α)} {k : Text} {v : α}

theorem insert_insert (d : Dict α) (k : Text) (v w : α) :
    (d.insert k v).insert k w = d.insert k w := by
  apply ext_find?
  intro k'
  rw [find?_insert, find?_insert, find?_insert]
  split_ifs <;> rfl

theorem ofList_append_singleton (l : List (Text × α)) (e : Text × α) :
    ofList (l ++ [e]) = (ofList l).insert e.1 e.2 := List.foldl_append ..

theorem find?_ofList (l : List (Text × α)) (k : Text) :
    (ofList l).find? k = ((l.filter (·.1 = k)).getLast?).map (·.2) := by
  induction l using List.reverseRecOn with
  | nil => rfl
  | append_singleton l e ih =>
    rw [find?_ofList_append_singleton, ih, List.filter_append]
    by_cases hk : k = e.1
    · simp [hk]
    · simp [hk, Ne.symm hk]

theorem mem_of_find?_ofList (h : (ofList l).find? k = some v) : (k, v) ∈ l := by
  rw [find?_ofList, Option.map_eq_some_iff] at h
  obtain ⟨e, he, rfl⟩ := h
  obtain ⟨hm, rfl⟩ : e ∈ l ∧ e.1 = k := by simpa using List.mem_of_getLast? he
  exact hm

theorem mem_keys : k ∈ d.keys ↔ (d.find? k).isSome := by
  rw [find?, Option.isSome_map, List.find?_isSome]
  simp [keys]

theorem mem_keys_ofList : k ∈ (ofList l).keys ↔ k ∈ l.map (·.1) := by
  rw [mem_keys, find?_ofList, Option.isSome_map]
  simp

theorem find?_ofList_of_nodup (h : (l.map (·.1)).Nodup) {e : Text × α} (he : e ∈ l) :
    (ofList l).find? e.1 = some e.2 := by
  rw [find?_ofList]
  cases hl : (l.filter (·.1 = e.1)).getLast? with
  | none =>
    have hn : ∀ e' ∈ l, e'.1 ≠ e.1 := by simpa using hl
    exact absurd rfl (hn e he)
  | some e' =>
    obtain ⟨he', hk⟩ : e' ∈ l ∧ e'.1 = e.1 := by simpa using List.mem_of_getLast? hl
    rw [List.inj_on_of_nodup_map h he' he hk]
    rfl

theorem find?_ofList_of_agree (h : ∀ e ∈ l, d.find? e.1 = some e.2) (k : Text) :
    (ofList l).find? k = if k ∈ l.map (·.1) then d.find? k else none := by
  rw [find?_ofList]
  cases hl : (l.filter (·.1 = k)).getLast? with
  | none =>
    have hn : ∀ e ∈ l, e.1 ≠ k := by simpa using hl
    rw [if_neg]
    · rfl
    · intro hk
      obtain ⟨e, he, hek⟩ := List.mem_map.1 hk
      exact hn e he hek
  | some e =>
    obtain ⟨he, rfl⟩ : e ∈ l ∧ e.1 = k := by simpa using List.mem_of_getLast? hl
    rw [if_pos (List.mem_map_of_mem he), h e he]
    rfl

theorem ofList_entries (d : Dict α) : ofList d.entries = d := by
  apply ext_find?
  intro k
  rw [find?_ofList_of_agree fun e he => find?_eq_some_iff.2 he]
  split_ifs with hk
  · rfl
  · cases hd : d.find? k with
    | none => rfl
    | some v => exact absurd (List.mem_map_of_mem (f := (·.1)) (find?_eq_some_iff.1 hd)) hk

theorem find?_ofList_append (l m : List (Text × α)) (k : Text) :
    (ofList (l ++ m)).find? k = ((ofList m).find? k).or ((ofList l).find? k) := by
  rw [find?_ofList, find?_ofList, find?_ofList, List.filter_append, List.getLast?_append,
    Option.map_or]

theorem ofList_flatMap_entries (ls : List (List (Text × α))) :
    ofList (ls.flatMap fun l => (ofList l).entries) = ofList ls.flatten := by
  induction ls with
  | nil => rfl
  | cons l ls ih =>
    apply ext_find?
    intro k
    rw [List.flatMap_cons, List.flatten_cons, find?_ofList_append, find?_ofList_append, ih,
      ofList_entries]

end Routing.Dict
