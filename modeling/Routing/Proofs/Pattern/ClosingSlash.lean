import Mathlib.Data.List.ModifyLast
import Routing.Batch
import Routing.Proofs.Pattern.Reading

/-! A slash behind a text, for a pattern that closes with a slash and a star. The star needs a character
behind its own slash, so the slash that is added cannot serve as that one: the search takes the same
choices as without it, and the last capture takes the slash. -/

namespace Routing.Pattern

variable {next : Text → Outcome} {s : Text} {ts : List Text} {is : List Item} {ss vs : List Segment}

def closeLast (ts : List Text) : List Text := ts.modifyLast (· ++ ['/'])

theorem closeLast_append_singleton (ts : List Text) (t : Text) :
    closeLast (ts ++ [t]) = ts ++ [t ++ ['/']] := List.modifyLast_concat ..

theorem closeLast_cons (t : Text) (h : ts ≠ []) : closeLast (t :: ts) = t :: closeLast ts :=
  List.modifyLast_append_of_right_ne_nil _ [t] ts h

theorem closeLast_extend (c : Char) (ts : List Text) :
    closeLast (extend c ts) = extend c (closeLast ts) := by
  match ts with
  | [] => rfl
  | [t] => rfl
  | t :: u :: ts =>
    rw [extend, closeLast_cons _ (List.cons_ne_nil _ _), closeLast_cons _ (List.cons_ne_nil _ _)]
    rfl

/-- A slash behind a text that ends with none goes to the last capture, and to nothing else. -/
structure Closes (f : Text → Outcome) : Prop where
  nil : f [] = none
  ne_nil : ∀ {s ts}, f s = some ts → ts ≠ []
  append : ∀ {s}, s.getLast? ≠ some '/' → f (s ++ ['/']) = (f s).map closeLast

theorem getLast?_of_cons {c : Char} (h : (c :: s).getLast? ≠ some '/') : s.getLast? ≠ some '/' := by
  cases s with
  | nil => simp
  | cons d s => rwa [List.getLast?_cons_cons] at h

theorem search_rest (s : Text) : search [.rest] s = if s.isEmpty then none else some [s] := by
  induction s with
  | nil => rfl
  | cons c s ih =>
    have h : search [.rest] (c :: s) =
        ((search [.rest] s).map (extend c)).or ((search [] s).map ([c] :: ·)) := rfl
    rw [h, ih]
    cases s <;> rfl

theorem closes_slash_rest : Closes (search [.slash, .rest]) where
  nil := rfl
  ne_nil {s ts} h := by
    obtain ⟨-, r, us, -, hr, -, rfl⟩ := Item.search_eq_some h
    rw [search_rest] at hr
    split_ifs at hr
    obtain rfl := Option.some.inj hr
    simp
  append {s} h := by
    match s with
    | [] => rfl
    | c :: s =>
      have hs (t : Text) : search [.slash, .rest] (c :: t) = if c = '/' then search [.rest] t else none :=
        search_slash_cons
      rw [List.cons_append, hs, hs]
      split_ifs with hc
      · subst hc
        -- behind the slash of the star stands a character, since the text does not end with the slash
        obtain ⟨d, s, rfl⟩ : ∃ d t, s = d :: t := by
          apply List.exists_cons_of_ne_nil
          rintro rfl
          exact h rfl
        rw [search_rest, search_rest]
        rfl
      · rfl

theorem Closes.searchRun (h : Closes next) (admits : Char → Bool) :
    Closes (searchRun admits next) where
  nil := rfl
  ne_nil hs := by
    obtain ⟨t, -, us, -, -, -, -, rfl⟩ := searchRun_eq_some hs
    exact List.cons_ne_nil t us
  append {s} hs := by
    induction s with
    | nil => simp [Pattern.searchRun, h.nil]
    | cons c s ih =>
      have hs := getLast?_of_cons hs
      rw [List.cons_append, Pattern.searchRun, Pattern.searchRun, ih hs, h.append hs]
      split_ifs
      · rw [Option.map_or, Option.map_map, Option.map_map, Option.map_map, Option.map_map]
        congr 1
        · congr 1
          funext ts
          exact (closeLast_extend c ts).symm
        · cases hn : next s with
          | none => rfl
          | some ts => exact congrArg some (closeLast_cons [c] (h.ne_nil hn)).symm
      · rfl

theorem Closes.searchFixed (h : Closes next) (ps : List Spelling) :
    Closes (searchFixed ps next) where
  nil := by
    refine List.findSome?_eq_none_iff.2 fun p _ => ?_
    rw [List.drop_nil, h.nil, ite_self]
  ne_nil hs := by
    obtain ⟨t, r, -, hr, -⟩ := searchFixed_eq_some hs
    exact h.ne_nil hr
  append {s} hs := by
    rw [Pattern.searchFixed, Pattern.searchFixed, List.map_findSome?]
    congr 1
    funext p
    by_cases hl : p.text.length ≤ s.length
    · have hb : p.begins (s ++ ['/']) = p.begins s := by
        rw [Bool.eq_iff_iff, Spelling.begins_iff, Spelling.begins_iff, List.take_append_of_le_length hl]
      rw [Function.comp_apply, hb, List.drop_append_of_le_length hl, h.append]
      · split_ifs <;> rfl
      · rw [List.getLast?_drop]
        split_ifs
        · simp
        · exact hs
    · -- nothing is left behind a spelling that takes the slash as well
      have hb : ¬ p.begins s = true := fun hb => hl (Spelling.length_le hb)
      have hd : (s ++ ['/']).drop p.text.length = [] := by
        rw [List.drop_eq_nil_iff, List.length_append, List.length_singleton]
        omega
      rw [Function.comp_apply, if_neg hb, hd, h.nil, ite_self]
      rfl

theorem closes_search (is : List Item) : Closes (search (is ++ [.slash, .rest])) := by
  induction is with
  | nil => exact closes_slash_rest
  | cons i is ih =>
    cases i with
    | slash => exact ih.searchFixed _
    | char c => exact ih.searchFixed _
    | escape a b => exact ih.searchFixed _
    | segment => exact ih.searchRun _
    | rest => exact ih.searchRun _

/-- Behind a pattern whose last segment is a star, a slash goes to the last capture. -/
theorem captures?_append_slash {name : Text} (h : Segment.visible ss = vs ++ [.star name])
    (hs : s.getLast? ≠ some '/') :
    (ofSegments ss).captures? (s ++ ['/']) = ((ofSegments ss).captures? s).map closeLast := by
  have hi : (ofSegments ss).items =
      (vs.flatMap fun s => .slash :: ofSegment s) ++ [.slash, .rest] := by
    simp [ofSegments, h, ofSegment]
  rw [captures?_eq_search, captures?_eq_search, hi]
  exact (closes_search _).append hs

end Routing.Pattern
