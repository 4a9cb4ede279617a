import Routing.Batch
import Routing.Proofs.Normalizer.Plain

/-! Captures of a text and of a spelling of it. The search takes the same choices in both, since it
does not stop inside an escape: what follows a run of characters begins with a slash, if with
anything. -/

namespace Routing.Pattern

open Percent

variable {next : Text → Outcome} {admits : Char → Bool} {c e : Char} {p r s t d : Text}
  {x x' y y' : Outcome} {is : List Item}

/-- The captures of one outcome spell those of the other. -/
def Alike (x y : Outcome) : Prop := Option.Rel (List.Forall₂ Spells) x y

/-- Texts that spell each other have outcomes that do. -/
def Respects (f : Text → Outcome) : Prop := ∀ ⦃r d : Text⦄, Spells r d → Alike (f r) (f d)

def AfterSegment (f : Text → Outcome) : Prop := ∀ (c : Char) (s : Text), c ≠ '/' → f (c :: s) = none

theorem Alike.or (h : Alike x y) (h' : Alike x' y') : Alike (x.or x') (y.or y') := by
  cases h with
  | none => exact h'
  | some h => exact .some h

theorem Alike.map {f g : List Text → List Text} (h : Alike x y)
    (hfg : ∀ {ts us}, List.Forall₂ Spells ts us → List.Forall₂ Spells (f ts) (g us)) :
    Alike (x.map f) (y.map g) := by
  cases h with
  | none => exact .none
  | some h => exact .some (hfg h)

/-- A run takes a text as a whole where what follows cannot begin inside it. -/
theorem searchRun_append (hn : AfterSegment next) (ha : ∀ d ∈ c :: p, admits d) (hp : '/' ∉ p)
    (s : Text) : searchRun admits next (c :: p ++ s) =
      ((searchRun admits next s).map (List.modifyHead (c :: p ++ ·))).or
        ((next s).map ((c :: p) :: ·)) := by
  induction p generalizing c with
  | nil =>
    have hx : extend c = List.modifyHead ([c] ++ ·) := by
      funext ts
      cases ts <;> rfl
    rw [List.singleton_append, searchRun, if_pos (ha c (by simp)), hx]
  | cons d p ih =>
    rw [List.mem_cons, not_or] at hp
    rw [List.forall_mem_cons] at ha
    rw [List.cons_append, searchRun, if_pos ha.1, ih ha.2 hp.2, List.cons_append,
      hn d _ (Ne.symm hp.1), Option.map_none, Option.or_none, Option.map_or, Option.map_map,
      Option.map_map]
    congr 2
    funext ts
    cases ts <;> rfl

theorem searchRun_token (hn : AfterSegment next) (ha : ∀ c, c ≠ '/' → admits c) (ht : Token c p)
    (s : Text) : searchRun admits next (p ++ s) =
      if admits c then
        ((searchRun admits next s).map (List.modifyHead (p ++ ·))).or ((next s).map (p :: ·))
      else none := by
  by_cases hc : c = '/'
  · subst hc
    obtain rfl := ht.slash
    split_ifs with h
    · exact searchRun_append hn (by simpa using h) (by simp) s
    · rw [List.singleton_append, searchRun, if_neg h]
  · have hp := ht.slash_not_mem hc
    obtain ⟨b, q, rfl⟩ := List.exists_cons_of_ne_nil ht.ne_nil
    rw [if_pos (ha c hc)]
    refine searchRun_append hn (fun d hd => ha d fun h => hp (h ▸ hd)) ?_ s
    exact fun hq => hp (List.mem_cons_of_mem _ hq)

theorem respects_searchRun (ha : ∀ c, c ≠ '/' → admits c) (hr : Respects next)
    (hn : AfterSegment next) : Respects (searchRun admits next) := by
  intro r d h
  induction h with
  | nil => exact .none
  | @cons c p r d ht h ih =>
    rw [searchRun_token hn ha ht, ← List.singleton_append,
      searchRun_token hn ha (token_self ht.ne_percent)]
    split_ifs
    · refine (ih.map fun hts => ?_).or ((hr h).map fun hts => .cons (Spells.singleton_iff.2 ht) hts)
      cases hts with
      | nil => exact .nil
      | cons hs hts => exact .cons (.cons ht hs) hts
    · exact .none

theorem searchFixed_eq_none {ps : List Spelling}
    (h : ∀ t r, (∃ p ∈ ps, p.Writes t) → s ≠ t ++ r) : searchFixed ps next s = none := by
  refine Option.eq_none_iff_forall_ne_some.2 fun ts hs => ?_
  obtain ⟨t, r, ht, -, he⟩ := searchFixed_eq_some hs
  exact h t r ht he

theorem searchFixed_of_unique {ps : List Spelling} (ht : ∃ p ∈ ps, p.Writes t)
    (hu : ∀ t' r', (∃ p ∈ ps, p.Writes t') → t ++ r = t' ++ r' → t' = t) :
    searchFixed ps next (t ++ r) = next r := by
  have found : ∀ ts, searchFixed ps next (t ++ r) = some ts → next r = some ts := by
    intro ts h
    obtain ⟨t', r', ht', hr, he⟩ := searchFixed_eq_some h
    obtain rfl := hu t' r' ht' he
    rwa [List.append_cancel_left he]
  cases hs : searchFixed ps next (t ++ r) with
  | some ts => exact (found ts hs).symm
  | none =>
    refine (Option.not_isSome_iff_eq_none.1 fun hr => ?_).symm
    have := isSome_searchFixed ht hr
    simp [hs] at this

theorem search_char_nil : (Item.char c).search next [] = none := by
  refine searchFixed_eq_none fun t r ht he => ?_
  obtain ⟨rfl, -⟩ := List.append_eq_nil_iff.1 he.symm
  rcases reads_char.1 ht with ht | ht
  · exact nomatch ht
  · obtain ⟨q, hq⟩ := exists_percent_cons ht
    exact nomatch hq

theorem search_char_token (hc : c ≠ '%') (ht : Token e p) (hs : decode? s = some t) :
    (Item.char c).search next (p ++ s) = if c = e then next s else none := by
  have unique : ∀ q r, Item.Reads (.char c) q → p ++ s = q ++ r → c = e ∧ q = p :=
    fun q r hq he => ht.eq_of_append_eq hs hc (reads_char.1 hq) he
  split_ifs with h
  · subst h
    exact searchFixed_of_unique (reads_char.2 (ht.eq_or.imp_right And.right))
      fun q r hq he => (unique q r hq he).2
  · exact searchFixed_eq_none fun q r hq he => h (unique q r hq he).1

theorem respects_char (hc : c ≠ '%') (hr : Respects next) :
    Respects ((Item.char c).search next) := by
  intro r d h
  cases h with
  | nil =>
    rw [search_char_nil]
    exact .none
  | @cons e p r d ht h =>
    rw [search_char_token hc ht h.decodes.2, ← List.singleton_append,
      search_char_token hc (token_self ht.ne_percent) (decode?_of_not_mem h.percent_not_mem)]
    split_ifs
    · exact hr h
    · exact .none

theorem afterSegment_slash : AfterSegment (Item.slash.search next) := by
  intro c s hc
  rw [search_slash_cons, if_neg hc]

theorem respects_slash (hr : Respects next) : Respects (Item.slash.search next) := by
  intro r d h
  cases h with
  | nil => exact .none
  | @cons c p r d ht h =>
    by_cases hc : c = '/'
    · subst hc
      rw [ht.slash, List.singleton_append, search_slash_cons, search_slash_cons, if_pos rfl, if_pos rfl]
      exact hr h
    · have hp := ht.slash_not_mem hc
      obtain ⟨b, q, rfl⟩ := List.exists_cons_of_ne_nil ht.ne_nil
      rw [List.mem_cons, not_or] at hp
      rw [List.cons_append, search_slash_cons, search_slash_cons, if_neg hc, if_neg (Ne.symm hp.1)]
      exact .none

theorem respects_end : Respects (search []) := by
  intro r d h
  cases h with
  | nil => exact .some .nil
  | @cons c p r d ht h =>
    obtain ⟨b, q, rfl⟩ := List.exists_cons_of_ne_nil ht.ne_nil
    exact .none

theorem respects_literal (hp : '%' ∉ t) (hr : Respects (search is)) :
    Respects (search (literal t ++ is)) := by
  induction t with
  | nil => exact hr
  | cons c t ih =>
    rw [List.mem_cons, not_or] at hp
    rw [literal_cons (Ne.symm hp.1)]
    exact respects_char (Ne.symm hp.1) (ih hp.2)

variable {ss : List Segment}

def EscapeFree (ss : List Segment) : Prop := ∀ text, Segment.static text ∈ ss → '%' ∉ text

theorem afterSegment_segments (ss : List Segment) :
    AfterSegment (search (ss.flatMap fun s => .slash :: ofSegment s)) := by
  cases ss with
  | nil => exact fun _ _ _ => rfl
  | cons s ss => exact afterSegment_slash

theorem respects_segments (h : EscapeFree ss) :
    Respects (search (ss.flatMap fun s => .slash :: ofSegment s)) := by
  induction ss with
  | nil => exact respects_end
  | cons s ss ih =>
    have ih := ih fun text ht => h text (List.mem_cons_of_mem _ ht)
    rw [List.flatMap_cons, List.cons_append]
    apply respects_slash
    cases s with
    | static text => exact respects_literal (h text List.mem_cons_self) ih
    | dynamic name =>
      exact respects_searchRun (fun c hc => by simpa using hc) ih (afterSegment_segments ss)
    | star name => exact respects_searchRun (fun _ _ => rfl) ih (afterSegment_segments ss)
    | epsilon => exact ih

/-- The captures of a text and of its spellings correspond, stars included. -/
theorem alike_captures? (h : EscapeFree (Segment.visible ss)) (hs : Spells r d) :
    Alike ((ofSegments ss).captures? r) ((ofSegments ss).captures? d) := by
  rw [captures?_eq_search, captures?_eq_search, ofSegments]
  split_ifs
  · exact respects_slash respects_end hs
  · exact respects_segments h hs

end Routing.Pattern
