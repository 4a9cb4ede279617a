import Routing.Text

/-! Finite maps from text, listed by ascending key. The keys are strictly ascending by type, so two
maps with the same entries are equal. -/

namespace Routing

structure Dict (α : Type) where
  entries : List (Text × α)
  sorted : entries.Pairwise (fun a b => a.1 < b.1)

namespace Dict

variable {α : Type}

def empty : Dict α := ⟨[], .nil⟩

instance : Inhabited (Dict α) := ⟨empty⟩

instance : EmptyCollection (Dict α) := ⟨empty⟩

/-- Puts `v` at the place of `k`, in the place of an older value. -/
def insertEntry (k : Text) (v : α) : List (Text × α) → List (Text × α)
  | [] => [(k, v)]
  | (k', v') :: r =>
    if k < k' then (k, v) :: (k', v') :: r
    else if k' < k then (k', v') :: insertEntry k v r
    else (k, v) :: r

theorem mem_insertEntry {k : Text} {v : α} {l : List (Text × α)} {e : Text × α}
    (h : e ∈ insertEntry k v l) : e = (k, v) ∨ e ∈ l := by
  induction l with
  | nil => simpa [insertEntry] using h
  | cons a r ih => grind [insertEntry]

theorem pairwise_insertEntry (k : Text) (v : α) {l : List (Text × α)}
    (h : l.Pairwise (fun a b => a.1 < b.1)) :
    (insertEntry k v l).Pairwise (fun a b => a.1 < b.1) := by
  induction l with
  | nil => simp [insertEntry]
  | cons a r ih =>
    obtain ⟨ha, hr⟩ := List.pairwise_cons.1 h
    rw [insertEntry]
    split
    · next hlt =>
      refine List.pairwise_cons.2 ⟨fun e he => ?_, h⟩
      rcases List.mem_cons.1 he with rfl | he
      · exact hlt
      · exact List.lt_trans hlt (ha e he)
    · next hge =>
      split
      · next hlt =>
        refine List.pairwise_cons.2 ⟨fun e he => ?_, ih hr⟩
        rcases mem_insertEntry he with rfl | he
        · exact hlt
        · exact ha e he
      · next hle =>
        have hk : k = a.1 := List.le_antisymm (List.not_lt.1 hle) (List.not_lt.1 hge)
        exact List.pairwise_cons.2 ⟨fun e he => hk ▸ ha e he, hr⟩

def insert (d : Dict α) (k : Text) (v : α) : Dict α :=
  ⟨insertEntry k v d.entries, pairwise_insertEntry k v d.sorted⟩

def find? (d : Dict α) (k : Text) : Option α := (d.entries.find? (·.1 == k)).map (·.2)

def contains (d : Dict α) (k : Text) : Bool := (d.find? k).isSome

def keys (d : Dict α) : List Text := d.entries.map (·.1)

def size (d : Dict α) : Nat := d.entries.length

/-- The map of a list of pairs, in which a later pair replaces an earlier one of the same key. -/
def ofList (l : List (Text × α)) : Dict α := l.foldl (fun d e => d.insert e.1 e.2) empty

@[ext] theorem ext {d e : Dict α} (h : d.entries = e.entries) : d = e := by
  cases d; cases e; cases h; rfl

theorem find?_insertEntry (k k' : Text) (v : α) (l : List (Text × α)) :
    ((insertEntry k v l).find? (·.1 == k')).map (·.2) =
      if k' = k then some v else (l.find? (·.1 == k')).map (·.2) := by
  induction l with
  | nil => by_cases h : k = k' <;> grind [insertEntry]
  | cons a r ih =>
    rw [insertEntry]
    split
    · by_cases h : k = k' <;> grind
    · split
      · next hlt =>
        have hne : a.1 ≠ k := fun h => List.lt_irrefl k (h ▸ hlt)
        by_cases h : a.1 = k' <;> grind
      · next hge hle =>
        have hk : k = a.1 := List.le_antisymm (List.not_lt.1 hle) (List.not_lt.1 hge)
        by_cases h : k = k' <;> grind

theorem find?_insert (d : Dict α) (k k' : Text) (v : α) :
    (d.insert k v).find? k' = if k' = k then some v else d.find? k' :=
  find?_insertEntry k k' v d.entries

theorem find?_eq_some_iff {d : Dict α} {k : Text} {v : α} :
    d.find? k = some v ↔ (k, v) ∈ d.entries := by
  obtain ⟨l, h⟩ := d
  unfold find?
  induction l with
  | nil => simp
  | cons a r ih =>
    obtain ⟨ha, hr⟩ := List.pairwise_cons.1 h
    by_cases hk : a.1 = k
    · have : ∀ w, (k, w) ∉ r := fun w hw => List.lt_irrefl k (hk ▸ ha (k, w) hw)
      grind
    · grind

theorem find?_ofList_append_singleton (l : List (Text × α)) (e : Text × α) (k : Text) :
    (ofList (l ++ [e])).find? k = if k = e.1 then some e.2 else (ofList l).find? k := by
  rw [ofList, List.foldl_append, ← ofList]
  exact find?_insert ..

theorem eq_of_mem_iff {l m : List (Text × α)} (hl : l.Pairwise (fun a b => a.1 < b.1))
    (hm : m.Pairwise (fun a b => a.1 < b.1)) (h : ∀ e, e ∈ l ↔ e ∈ m) : l = m := by
  have nodup : ∀ {l : List (Text × α)}, l.Pairwise (fun a b => a.1 < b.1) → l.Nodup := fun hl =>
    List.nodup_iff_pairwise_ne.2 (hl.imp fun {a b} h => by
      rintro rfl
      exact List.lt_irrefl a.1 h)
  exact ((List.perm_ext_iff_of_nodup (nodup hl) (nodup hm)).2 fun e => h e).eq_of_pairwise
    (fun _ _ _ _ hab hba => absurd hba (List.lt_asymm hab)) hl hm

theorem ext_find? {d e : Dict α} (h : ∀ k, d.find? k = e.find? k) : d = e := by
  apply ext
  refine eq_of_mem_iff d.sorted e.sorted fun a => ?_
  rw [← find?_eq_some_iff, ← find?_eq_some_iff, h]

end Dict
end Routing
