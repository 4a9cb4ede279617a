import Routing.Proofs.Query.Events

/-! The canonical text of a list of entries. Its pieces are the texts of events, which can be told apart,
and the events of one key are those of its value. So the text determines which entries wrote it, and the
sort by keys leaves nothing else to determine. -/

namespace Routing.Query

open Percent (encodeComponent)

variable {key k t : Text} {v : Value} {e : Text × Value} {es fs : List (Text × Value)}
  {as bs : List (Text × Option Value)} {ps qs : List Text}

/-- The entries that write a piece: their value is there and no empty list. -/
def effective (as : List (Text × Option Value)) : List (Text × Value) :=
  as.filterMap fun a => (a.2.filter (· ≠ .multiple [])).map (Prod.mk a.1)

def Event.text (e : Event) : Text :=
  encodeComponent e.key ++ (if e.item then ['[', ']'] else []) ++ '=' :: encodeComponent e.value

def Value.events (key : Text) : Value → List Event
  | single t => [⟨key, false, t⟩]
  | multiple ts => ts.map fun t => ⟨key, true, t⟩

def eventsOf (es : List (Text × Value)) : List Event := es.flatMap fun e => e.2.events e.1

theorem encodeComponent_injective : Function.Injective encodeComponent := by
  intro s t h
  rw [← decodeForm_encodeComponent s, h, decodeForm_encodeComponent]

theorem pieces_eq_map_text (v : Value) (key : Text) :
    v.pieces key = (v.events key).map Event.text := by
  cases v with
  | single t => simp [Value.pieces, Value.events, Event.text]
  | multiple ts => simp [Value.pieces, Value.events, Event.text]

namespace Event

/-- The text before the `=` of an event. -/
def name (e : Event) : Text := encodeComponent e.key ++ if e.item then ['[', ']'] else []

theorem eq_not_mem_name (e : Event) : '=' ∉ e.name := by
  have hk := not_mem_encodeComponent (c := '=') (by decide) (by decide) e.key
  rw [name]
  split_ifs <;> simp [hk]

/-- Encoding leaves no bracket in a key, so those that stand in a name are the mark of a list. -/
theorem bracket_mem_name (e : Event) : ']' ∈ e.name ↔ e.item := by
  have hk := not_mem_encodeComponent (c := ']') (by decide) (by decide) e.key
  rw [name]
  cases e.item <;> simp [hk]

theorem name_inj {e f : Event} (h : e.name = f.name) : e.key = f.key ∧ e.item = f.item := by
  have hi : e.item = f.item := by
    rw [Bool.eq_iff_iff, ← bracket_mem_name, h, bracket_mem_name]
  rw [name, name, hi] at h
  exact ⟨encodeComponent_injective (List.append_cancel_right h), hi⟩

theorem cut_text (e : Event) : Text.cut '=' e.text = (e.name, some (encodeComponent e.value)) :=
  Text.cut_append_sep e.eq_not_mem_name _

theorem text_injective : Function.Injective text := by
  intro e f h
  have hcut := congrArg (Text.cut '=') h
  rw [cut_text, cut_text] at hcut
  obtain ⟨hname, hvalue⟩ := Prod.mk.inj hcut
  obtain ⟨hk, hi⟩ := name_inj hname
  have hv : e.value = f.value := encodeComponent_injective (Option.some.inj hvalue)
  cases e
  cases f
  simp_all

end Event

theorem joinPieces_inj (hp : ∀ p ∈ ps, '&' ∉ p) (hq : ∀ q ∈ qs, '&' ∉ q)
    (h : joinPieces ps = joinPieces qs) : ps = qs := by
  cases ps with
  | nil =>
    cases qs with
    | nil => rfl
    | cons q qs => exact nomatch h
  | cons p ps =>
    cases qs with
    | nil => exact nomatch h
    | cons q qs =>
      have hj := (List.cons.inj h).2
      rw [← List.splitOn_intercalate '&' hp (by simp), hj, List.splitOn_intercalate '&' hq (by simp)]

theorem events_injective (key : Text) : Function.Injective (Value.events key) := by
  intro v w h
  cases v with
  | single t =>
    cases w with
    | single u => simpa [Value.events] using h
    | multiple us => cases us <;> simp [Value.events] at h
  | multiple ts =>
    cases w with
    | single u => cases ts <;> simp [Value.events] at h
    | multiple us =>
      have hinj : Function.Injective fun t => (⟨key, true, t⟩ : Event) :=
        fun _ _ ht => (Event.mk.inj ht).2.2
      rw [List.map_injective_iff.2 hinj h]

theorem events_ne_nil (h : v ≠ .multiple []) : v.events key ≠ [] := by
  cases v with
  | single t => simp [Value.events]
  | multiple ts =>
    rw [Value.events, Ne, List.map_eq_nil_iff]
    rintro rfl
    exact h rfl

theorem key_of_mem_events {e : Event} (h : e ∈ v.events key) : e.key = key := by
  cases v with
  | single t => rw [List.mem_singleton.1 h]
  | multiple ts =>
    obtain ⟨t, -, rfl⟩ := List.mem_map.1 h
    rfl

theorem filter_eventsOf (es : List (Text × Value)) (k : Text) :
    (eventsOf es).filter (·.key = k) = eventsOf (es.filter (·.1 = k)) := by
  induction es with
  | nil => rfl
  | cons e es ih =>
    rw [eventsOf, List.flatMap_cons, List.filter_append, ← eventsOf, ih, List.filter_cons]
    by_cases hk : e.1 = k
    · have hall : (e.2.events e.1).filter (·.key = k) = e.2.events e.1 :=
        List.filter_eq_self.2 fun f hf => by simp [key_of_mem_events hf, hk]
      rw [hall, if_pos (by simpa using hk)]
      rfl
    · have hnone : (e.2.events e.1).filter (·.key = k) = [] :=
        List.filter_eq_nil_iff.2 fun f hf => by simp [key_of_mem_events hf, hk]
      rw [hnone, if_neg (by simpa using hk)]
      rfl

theorem filter_of_nodup (hn : (es.map (·.1)).Nodup) (he : e ∈ es) :
    es.filter (·.1 = e.1) = [e] := by
  induction es with
  | nil => exact nomatch he
  | cons f es ih =>
    rw [List.map_cons, List.nodup_cons] at hn
    rcases List.mem_cons.1 he with rfl | he
    · have hnone : es.filter (·.1 = e.1) = [] :=
        List.filter_eq_nil_iff.2 fun f hf hk => hn.1 (by
          rw [← of_decide_eq_true hk]
          exact List.mem_map_of_mem hf)
      simp [hnone]
    · have hne : f.1 ≠ e.1 := fun hk => hn.1 (hk ▸ List.mem_map_of_mem he)
      simp [hne, ih hn.2 he]

theorem subset_of_eventsOf_eq (he : (es.map (·.1)).Nodup) (hf : (fs.map (·.1)).Nodup)
    (hv : ∀ e ∈ es, e.2 ≠ .multiple []) (h : eventsOf es = eventsOf fs) : es ⊆ fs := by
  intro e hm
  have hs : e.2.events e.1 = eventsOf (fs.filter (·.1 = e.1)) := by
    rw [← filter_eventsOf, ← h, filter_eventsOf, filter_of_nodup he hm]
    simp [eventsOf]
  obtain ⟨f, hf', hk⟩ : ∃ f ∈ fs, f.1 = e.1 := by
    by_contra hn
    have hnone : fs.filter (·.1 = e.1) = [] :=
      List.filter_eq_nil_iff.2 fun f hf hk => hn ⟨f, hf, of_decide_eq_true hk⟩
    rw [hnone] at hs
    exact events_ne_nil (hv e hm) hs
  rw [← hk, filter_of_nodup hf hf', hk] at hs
  have hval : e.2 = f.2 := events_injective e.1 (by simpa [eventsOf, hk] using hs)
  have hef : e = f := Prod.ext hk.symm hval
  rwa [hef]

/-- Events determine the entries that they come from, up to their order. -/
theorem perm_of_eventsOf_eq (he : (es.map (·.1)).Nodup) (hf : (fs.map (·.1)).Nodup)
    (hv : ∀ e ∈ es, e.2 ≠ .multiple []) (hw : ∀ f ∈ fs, f.2 ≠ .multiple [])
    (h : eventsOf es = eventsOf fs) : es.Perm fs := by
  rw [List.perm_ext_iff_of_nodup he.of_map hf.of_map]
  intro e
  exact ⟨fun hm => subset_of_eventsOf_eq he hf hv h hm,
    fun hm => subset_of_eventsOf_eq hf he hw h.symm hm⟩

theorem mem_effective : e ∈ effective as ↔ (e.1, some e.2) ∈ as ∧ e.2 ≠ .multiple [] := by
  simp only [effective, List.mem_filterMap, Option.map_eq_some_iff, Option.filter_eq_some_iff,
    decide_eq_true_eq]
  constructor
  · rintro ⟨⟨key, -⟩, ha, v, ⟨rfl, hv⟩, rfl⟩
    exact ⟨ha, hv⟩
  · rintro ⟨ha, hv⟩
    exact ⟨_, ha, e.2, ⟨rfl, hv⟩, rfl⟩

theorem ne_nil_of_mem_effective : ∀ e ∈ effective as, e.2 ≠ .multiple [] :=
  fun _ he => (mem_effective.1 he).2

theorem pairwise_effective {R : Text → Text → Prop} (h : as.Pairwise fun a b => R a.1 b.1) :
    (effective as).Pairwise fun a b => R a.1 b.1 := by
  have key : ∀ (a : Text × Option Value) (e : Text × Value),
      (a.2.filter (· ≠ .multiple [])).map (Prod.mk a.1) = some e → e.1 = a.1 := by
    intro a e he
    obtain ⟨v, -, rfl⟩ := Option.map_eq_some_iff.1 he
    rfl
  refine h.filterMap _ fun a b hab e he f hf => ?_
  rwa [key a e he, key b f hf]

theorem nodup_effective (h : (as.map (·.1)).Nodup) : ((effective as).map (·.1)).Nodup :=
  List.pairwise_map.2 (pairwise_effective (List.pairwise_map.1 h))

theorem effective_perm (h : as.Perm bs) : (effective as).Perm (effective bs) := h.filterMap _

theorem flatMap_pieces_eq (as : List (Text × Option Value)) :
    (as.flatMap fun a => a.2.elim [] (Value.pieces a.1)) =
      (eventsOf (effective as)).map Event.text := by
  induction as with
  | nil => rfl
  | cons a as ih =>
    obtain ⟨key, v⟩ := a
    rw [List.flatMap_cons, ih]
    rcases v with _ | v
    · rfl
    by_cases hv : v = .multiple []
    · simp [hv, effective, Value.pieces]
    · simp [hv, effective, eventsOf, pieces_eq_map_text]

theorem write_eq (as : List (Text × Option Value)) :
    write as = joinPieces ((eventsOf (effective (sortEntries as))).map Event.text) :=
  congrArg joinPieces (flatMap_pieces_eq _)

theorem sortEntries_perm (as : List (Text × Option Value)) : (sortEntries as).Perm as :=
  sortStable_perm _ as

theorem sortEntries_pairwise (ha : (as.map (·.1)).Nodup) :
    (sortEntries as).Pairwise fun a b => a.1 < b.1 := by
  have le_iff : ∀ a b : Text × Option Value, (! decide (b.1 < a.1)) = true ↔ ¬ b.1 < a.1 := by
    intro a b
    rw [Bool.not_eq_true', decide_eq_false_iff_not]
  have hle : (sortEntries as).Pairwise fun a b => ! decide (b.1 < a.1) := by
    refine sortStable_pairwise (fun a b => ?_) (fun a b c hab hbc => ?_) as
    · rw [le_iff, le_iff]
      exact (em (b.1 < a.1)).elim (fun h => .inr (List.lt_asymm h)) .inl
    · rw [le_iff] at hab hbc ⊢
      exact List.not_lt.2 (List.le_trans (List.not_lt.1 hab) (List.not_lt.1 hbc))
  have hne := List.pairwise_map.1 (((sortEntries_perm as).map _).nodup_iff.2 ha)
  refine (hle.and hne).imp fun {a b} h => ?_
  by_contra hlt
  exact h.2 (List.le_antisymm (List.not_lt.1 ((le_iff a b).1 h.1)) (List.not_lt.1 hlt))

theorem effective_sortEntries_eq (ha : (as.map (·.1)).Nodup) (hb : (bs.map (·.1)).Nodup)
    (h : (effective as).Perm (effective bs)) :
    effective (sortEntries as) = effective (sortEntries bs) := by
  have hp : (effective (sortEntries as)).Perm (effective (sortEntries bs)) :=
    (effective_perm (sortEntries_perm as)).trans (h.trans (effective_perm (sortEntries_perm bs)).symm)
  exact Dict.eq_of_mem_iff (pairwise_effective (sortEntries_pairwise ha))
    (pairwise_effective (sortEntries_pairwise hb)) fun _ => hp.mem_iff

theorem amp_not_mem_pieces (as : List (Text × Option Value)) :
    ∀ p ∈ (eventsOf (effective as)).map Event.text, '&' ∉ p := by
  intro p hp
  rw [← flatMap_pieces_eq] at hp
  obtain ⟨⟨key, v⟩, -, hp⟩ := List.mem_flatMap.1 hp
  cases v with
  | none => simp at hp
  | some v => exact not_mem_pieces (by decide) (by decide) (by decide) hp

theorem write_eq_iff_perm (ha : (as.map (·.1)).Nodup) (hb : (bs.map (·.1)).Nodup) :
    write as = write bs ↔ (effective as).Perm (effective bs) := by
  have hsa := sortEntries_perm as
  have hsb := sortEntries_perm bs
  constructor
  · intro h
    rw [write_eq, write_eq] at h
    have hevents := List.map_injective_iff.2 Event.text_injective
      (joinPieces_inj (amp_not_mem_pieces _) (amp_not_mem_pieces _) h)
    have hp := perm_of_eventsOf_eq (nodup_effective ((hsa.map _).nodup_iff.2 ha))
      (nodup_effective ((hsb.map _).nodup_iff.2 hb)) ne_nil_of_mem_effective ne_nil_of_mem_effective
      hevents
    exact (effective_perm hsa).symm.trans (hp.trans (effective_perm hsb))
  · intro h
    rw [write_eq, write_eq, effective_sortEntries_eq ha hb h]

/-- Entries of different keys write the same text just when the same of them are effective, in whatever
order. So the order never counts, nothing is written without an effective entry, and a list is never
taken for a scalar whose key looks like that of a list. -/
theorem write_canonical (ha : (as.map (·.1)).Nodup) (hb : (bs.map (·.1)).Nodup) :
    (write as = write bs ↔ (effective as).Perm (effective bs)) ∧
      (as.Perm bs → write as = write bs) ∧
      (write as = [] ↔ effective as = []) ∧
      ∀ key ts t, write [(key, some (.multiple ts))] ≠
        write [(key ++ ['[', ']'], some (.single t))] := by
  refine ⟨write_eq_iff_perm ha hb, fun h => ?_, ?_, fun key ts t h => ?_⟩
  · exact (write_eq_iff_perm ha hb).2 (effective_perm h)
  · have hn : (([] : List (Text × Option Value)).map (·.1)).Nodup := List.nodup_nil
    exact (write_eq_iff_perm ha hn).trans List.perm_nil
  · rw [write_eq_iff_perm (by simp) (by simp)] at h
    have hm : (key ++ ['[', ']'], Value.single t) ∈ effective [(key, some (.multiple ts))] :=
      h.mem_iff.2 (by simp [effective])
    simpa using (mem_effective.1 hm).1

/-- Neither the order nor a value that is absent or empty counts, but the kind of a value does. -/
theorem write_canonical_list_of_one :
    write [(['b'], some (.single ['1'])), (['a'], some (.multiple [['x']])), (['c'], none)] =
        write [(['d'], some (.multiple [])), (['a'], some (.multiple [['x']])),
          (['b'], some (.single ['1']))] ∧
      write [(['a'], some (.multiple [['x']]))] ≠ write [(['a'], some (.single ['x']))] :=
  ⟨(write_canonical (by decide) (by decide)).1.2 (by decide),
    fun h => absurd ((write_canonical (by decide) (by decide)).1.1 h) (by decide)⟩

end Routing.Query
