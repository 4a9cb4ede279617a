import Routing.Pattern.Captures
import Mathlib.Tactic

/-! What a pattern reads, whatever is preferred: the texts that fall into one piece for each item.
The search finds a reading whenever there is one, and what it finds is one. -/

namespace Routing.Pattern

def Spelling.Writes (p : Spelling) (t : Text) : Prop :=
  if p.caseless then List.Forall₂ (fun a b => sameLetter a b) p.text t else t = p.text

/-- The pieces that one item reads. -/
def Item.Reads : Item → Text → Prop
  | segment, t => t ≠ [] ∧ '/' ∉ t
  | rest, t => t ≠ []
  | i, t => ∃ p ∈ i.spellings, p.Writes t

def Item.captured : Item → Text → List Text
  | segment, t => [t]
  | rest, t => [t]
  | _, _ => []

/-- A reading of a text by a sequence of items, with its captures. -/
inductive Reads : List Item → Text → List Text → Prop where
  | nil : Reads [] [] []
  | cons {i is t s ts} : Item.Reads i t → Reads is s ts →
      Reads (i :: is) (t ++ s) (i.captured t ++ ts)

namespace Reads

variable {i : Item} {is js : List Item} {s t : Text} {ts : List Text}

theorem nil_iff : Reads [] s ts ↔ s = [] ∧ ts = [] := by
  refine ⟨fun h => ?_, ?_⟩
  · cases h
    exact ⟨rfl, rfl⟩
  · intro hx
    obtain ⟨rfl, rfl⟩ := hx
    exact .nil

theorem cons_iff : Reads (i :: is) s ts ↔
    ∃ t r us, i.Reads t ∧ Reads is r us ∧ s = t ++ r ∧ ts = i.captured t ++ us := by
  refine ⟨fun h => ?_, ?_⟩
  · cases h with
    | cons ht hr => exact ⟨_, _, _, ht, hr, rfl, rfl⟩
  · intro hx
    obtain ⟨t, r, us, ht, hr, rfl, rfl⟩ := hx
    exact .cons ht hr

theorem append_iff : Reads (is ++ js) s ts ↔
    ∃ a b us vs, Reads is a us ∧ Reads js b vs ∧ s = a ++ b ∧ ts = us ++ vs := by
  induction is generalizing s ts with
  | nil => simp [nil_iff]
  | cons i is ih =>
    simp only [List.cons_append, cons_iff, ih]
    refine ⟨?_, ?_⟩
    · intro h
      obtain ⟨t, -, -, ht, ⟨a, b, us, vs, ha, hb, rfl, rfl⟩, rfl, rfl⟩ := h
      exact ⟨t ++ a, b, i.captured t ++ us, vs, ⟨t, a, us, ht, ha, rfl, rfl⟩, hb, by simp⟩
    · intro h
      obtain ⟨-, b, -, vs, ⟨t, a, us, ht, ha, rfl, rfl⟩, hb, rfl, rfl⟩ := h
      exact ⟨t, a ++ b, us ++ vs, ht, ⟨a, b, us, vs, ha, hb, rfl, rfl⟩, by simp⟩

theorem singleton_iff : Reads [i] s ts ↔ i.Reads s ∧ ts = i.captured s := by
  simp only [cons_iff, nil_iff]
  refine ⟨?_, ?_⟩
  · intro h
    obtain ⟨t, -, -, ht, ⟨rfl, rfl⟩, rfl, rfl⟩ := h
    simpa using ht
  · intro h
    obtain ⟨hs, rfl⟩ := h
    exact ⟨s, [], [], hs, ⟨rfl, rfl⟩, by simp⟩

end Reads

theorem Spelling.begins_go {p s : Text} : Spelling.begins.go p s = true ↔
    List.Forall₂ (fun a b => sameLetter a b) p (s.take p.length) := by
  induction p generalizing s with
  | nil => simp [begins.go]
  | cons a p ih => cases s <;> simp [begins.go, ih]

theorem Spelling.begins_iff {p : Spelling} {s : Text} :
    p.begins s = true ↔ p.Writes (s.take p.text.length) := by
  unfold begins Writes
  split_ifs
  · exact begins_go
  · rw [List.isPrefixOf_iff_prefix, List.prefix_iff_eq_take, eq_comm]

theorem Spelling.Writes.length_eq {p : Spelling} {t : Text} (h : p.Writes t) :
    t.length = p.text.length := by
  unfold Writes at h
  split_ifs at h
  · exact h.length_eq.symm
  · rw [h]

theorem searchFixed_eq_some {ps : List Spelling} {next : Text → Outcome} {s : Text}
    {ts : List Text} (h : searchFixed ps next s = some ts) :
    ∃ t r, (∃ p ∈ ps, p.Writes t) ∧ next r = some ts ∧ s = t ++ r := by
  obtain ⟨p, hp, hs⟩ := List.exists_of_findSome?_eq_some h
  split_ifs at hs with hb
  exact ⟨s.take p.text.length, s.drop p.text.length, ⟨p, hp, Spelling.begins_iff.1 hb⟩, hs, by simp⟩

theorem isSome_searchFixed {ps : List Spelling} {next : Text → Outcome} {t r : Text}
    (ht : ∃ p ∈ ps, p.Writes t) (hr : (next r).isSome) : (searchFixed ps next (t ++ r)).isSome := by
  obtain ⟨p, hp, hw⟩ := ht
  refine List.findSome?_isSome_iff.2 ⟨p, hp, ?_⟩
  have hl := hw.length_eq
  have hb : p.begins (t ++ r) = true := by
    rw [Spelling.begins_iff, ← hl, List.take_left]
    exact hw
  rwa [if_pos hb, ← hl, List.drop_left]

theorem searchRun_eq_some {admits : Char → Bool} {next : Text → Outcome} {s : Text}
    {ts : List Text} (h : searchRun admits next s = some ts) :
    ∃ t r us, t ≠ [] ∧ (∀ c ∈ t, admits c) ∧ next r = some us ∧ s = t ++ r ∧ ts = t :: us := by
  induction s generalizing ts with
  | nil => exact nomatch h
  | cons c s ih =>
    rw [searchRun] at h
    split_ifs at h with hc
    cases hl : searchRun admits next s with
    | some vs =>
      rw [hl] at h
      obtain rfl := Option.some.inj h
      obtain ⟨t, r, us, -, ha, hr, rfl, rfl⟩ := ih hl
      exact ⟨c :: t, r, us, by simp, by simpa [hc] using ha, hr, rfl, rfl⟩
    | none =>
      rw [hl] at h
      obtain ⟨us, hr, rfl⟩ := Option.map_eq_some_iff.1 h
      exact ⟨[c], s, us, by simp, by simpa using hc, hr, rfl, rfl⟩

theorem isSome_searchRun {admits : Char → Bool} {next : Text → Outcome} {t r : Text}
    (hn : t ≠ []) (ha : ∀ c ∈ t, admits c) (hr : (next r).isSome) :
    (searchRun admits next (t ++ r)).isSome := by
  induction t with
  | nil => exact absurd rfl hn
  | cons c t ih =>
    have hc : admits c = true := ha c (by simp)
    rw [List.cons_append, searchRun, if_pos hc]
    by_cases ht : t = []
    · subst ht
      simp [hr]
    · have := ih ht fun d hd => ha d (by simp [hd])
      simp [this]

theorem Item.search_eq_some {next : Text → Outcome} {i : Item} {s : Text} {ts : List Text}
    (h : i.search next s = some ts) :
    ∃ t r us, i.Reads t ∧ next r = some us ∧ s = t ++ r ∧ ts = i.captured t ++ us := by
  cases i with
  | segment =>
    obtain ⟨t, r, us, hn, ha, hr, hs, hts⟩ := searchRun_eq_some h
    exact ⟨t, r, us, ⟨hn, fun hm => by simpa using ha _ hm⟩, hr, hs, hts⟩
  | rest =>
    obtain ⟨t, r, us, hn, -, hr, hs, hts⟩ := searchRun_eq_some h
    exact ⟨t, r, us, hn, hr, hs, hts⟩
  | slash =>
    obtain ⟨t, r, ht, hr, hs⟩ := searchFixed_eq_some h
    exact ⟨t, r, ts, ht, hr, hs, rfl⟩
  | char c =>
    obtain ⟨t, r, ht, hr, hs⟩ := searchFixed_eq_some h
    exact ⟨t, r, ts, ht, hr, hs, rfl⟩
  | escape x y =>
    obtain ⟨t, r, ht, hr, hs⟩ := searchFixed_eq_some h
    exact ⟨t, r, ts, ht, hr, hs, rfl⟩

theorem Item.isSome_search {next : Text → Outcome} {i : Item} {t r : Text}
    (ht : i.Reads t) (hr : (next r).isSome) : (i.search next (t ++ r)).isSome := by
  cases i with
  | segment =>
    refine isSome_searchRun ht.1 ?_ hr
    intro c hc
    have : c ≠ '/' := fun h => ht.2 (h ▸ hc)
    simpa using this
  | rest => exact isSome_searchRun ht (fun _ _ => rfl) hr
  | slash => exact isSome_searchFixed ht hr
  | char c => exact isSome_searchFixed ht hr
  | escape x y => exact isSome_searchFixed ht hr

theorem search_slash_cons {next : Text → Outcome} {c : Char} {s : Text} :
    Item.slash.search next (c :: s) = if c = '/' then next s else none := by
  by_cases hc : c = '/'
  · simp [Item.search, searchFixed, Item.spellings, Spelling.begins, hc]
  · simp [Item.search, searchFixed, Item.spellings, Spelling.begins, hc, Ne.symm hc]

theorem reads_of_search {is : List Item} {s : Text} {ts : List Text}
    (h : search is s = some ts) : Reads is s ts := by
  induction is generalizing s ts with
  | nil =>
    rw [search] at h
    split_ifs at h with hs
    obtain rfl := Option.some.inj h
    rw [List.isEmpty_iff.1 hs]
    exact .nil
  | cons i is ih =>
    obtain ⟨t, r, us, ht, hr, rfl, rfl⟩ := Item.search_eq_some h
    exact .cons ht (ih hr)

theorem isSome_search {is : List Item} {s : Text} {ts : List Text} (h : Reads is s ts) :
    (search is s).isSome := by
  induction h with
  | nil => rfl
  | cons ht _ ih => exact Item.isSome_search ht ih

theorem reads_of_captures? {p : Pattern} {s : Text} {ts : List Text}
    (h : p.captures? s = some ts) : Reads p.items s ts :=
  reads_of_search (captures?_eq_search p s ▸ h)

theorem isSome_captures? {p : Pattern} {s : Text} {ts : List Text} (h : Reads p.items s ts) :
    (p.captures? s).isSome :=
  captures?_eq_search p s ▸ isSome_search h

end Routing.Pattern
