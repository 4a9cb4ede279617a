import Routing.Proofs.Batch.Reading

/-! The capturing groups in the notation of a pattern, read off the text alone: past quoted characters,
past classes, and past groups that capture nothing. Static text opens none, whatever it holds, so there
is one group for each segment that declares a parameter. -/

namespace Routing

namespace Segment

def name? : Segment → Option Text
  | static _ => none
  | dynamic name => some name
  | star name => some name
  | epsilon => none

def isDynamic : Segment → Bool
  | dynamic _ => true
  | _ => false

def declaring (ss : List Segment) : List Segment := ss.filter (·.name?.isSome)

theorem declaring_visible (ss : List Segment) : declaring (visible ss) = declaring ss := by
  rw [declaring, visible, List.filter_filter]
  apply List.filter_congr
  intro s _
  cases s <;> rfl

end Segment

namespace Pattern

/-- Characters, each with whether it has the meaning that it has outside of classes. In none of them is
one behind a backslash, and classes may be nested. A bracket right at the beginning of a class does not
close it. -/
def mark : Nat → Text → List (Char × Bool)
  | depth, '\\' :: c :: s => ('\\', false) :: (c, false) :: mark depth s
  | depth, '[' :: '^' :: ']' :: s =>
    ('[', false) :: ('^', false) :: (']', false) :: mark (depth + 1) s
  | depth, '[' :: ']' :: s => ('[', false) :: (']', false) :: mark (depth + 1) s
  | depth, '[' :: s => ('[', false) :: mark (depth + 1) s
  | depth, ']' :: s => (']', false) :: mark (depth - 1) s
  | depth, c :: s => (c, depth == 0) :: mark depth s
  | _, [] => []

/-- Whether a parenthesis opens a capture, told by what is behind it: not if that is a question mark,
unless a name follows. -/
def opensCapture : List (Char × Bool) → Bool
  | ('?', _) :: ('<', _) :: _ => true
  | ('?', _) :: ('P', _) :: ('<', _) :: _ => true
  | ('?', _) :: _ => false
  | _ => true

/-- The text up to the parenthesis that closes a group, with the groups inside. -/
def upToClosing : Nat → List (Char × Bool) → Text
  | depth, ('(', true) :: s => '(' :: upToClosing (depth + 1) s
  | 0, (')', true) :: _ => [')']
  | depth + 1, (')', true) :: s => ')' :: upToClosing depth s
  | depth, (c, _) :: s => c :: upToClosing depth s
  | _, [] => []

def groupsOf : List (Char × Bool) → List Text
  | ('(', true) :: s =>
    if opensCapture s then ('(' :: upToClosing 0 s) :: groupsOf s else groupsOf s
  | _ :: s => groupsOf s
  | [] => []

/-- The capturing groups of a notation, in the order in which they open. -/
def groups (source : Text) : List Text := groupsOf (mark 0 source)

/-- The characters that open a group, or change what the characters behind them mean. -/
def openers : List Char := ['\\', '[', ']', '(']

/-- Text that may stand in front of any other without a group more. -/
def Silent (s : Text) : Prop := ∀ r, groups (s ++ r) = groups r

variable {s t : Text} {c : Char}

theorem silent_nil : Silent [] := fun _ => rfl

theorem Silent.append (hs : Silent s) (ht : Silent t) : Silent (s ++ t) := by
  intro r
  rw [List.append_assoc, hs, ht]

theorem silent_singleton (hc : c ∉ openers) : Silent [c] := by
  simp only [openers, List.mem_cons, List.not_mem_nil, or_false, not_or] at hc
  intro r
  have hm : mark 0 (c :: r) = (c, true) :: mark 0 r := by
    rw [mark] <;> simp_all
  rw [List.singleton_append, groups, hm, groupsOf]
  · rfl
  · simp_all

theorem silent_of_forall (h : ∀ c ∈ s, c ∉ openers) : Silent s := by
  induction s with
  | nil => exact silent_nil
  | cons c s ih =>
    rw [List.forall_mem_cons] at h
    exact (silent_singleton h.1).append (ih h.2)

theorem silent_quoted (c : Char) : Silent ['\\', c] := by
  intro r
  have hg : groups (['\\', c] ++ r) = groupsOf (('\\', false) :: (c, false) :: mark 0 r) := rfl
  rw [hg, groupsOf, groupsOf]
  · rfl
  · simp
  · simp

theorem silent_quote (c : Char) : Silent (quote c) := by
  unfold quote
  split_ifs with h
  · exact silent_quoted c
  · apply silent_singleton
    intro hc
    have all : openers.all isMeta = true := by decide
    exact h (List.all_eq_true.1 all c hc)

theorem silent_escapeChar (c : Char) : Silent (Percent.escapeChar c) := by
  apply silent_of_forall
  intro d hd
  have digits : ∀ x < 16, Percent.hexDigit x ∉ openers := by decide
  rcases Percent.mem_escapeChar hd with rfl | ⟨x, hx, rfl⟩
  · decide
  · exact digits x hx

theorem not_mem_openers_of_isHex (h : Percent.isHex c) : c ∉ openers := by
  intro hc
  have none : openers.any Percent.isHex = false := by decide
  exact List.any_eq_false.1 none c hc h

theorem silent_char (c : Char) : Silent (Item.source (.char c)) := by
  have opening : Silent "(?:".toList := fun _ => rfl
  have caseless : Silent "|(?i:".toList := fun _ => rfl
  have closing : Silent "))".toList := fun _ => rfl
  exact (((opening.append (silent_quote c)).append caseless).append (silent_escapeChar c)).append
    closing

theorem silent_escape {a b : Char} (ha : Percent.isHex a) (hb : Percent.isHex b) :
    Silent (Item.source (.escape a b)) := by
  have opening : Silent "(?i:".toList := fun _ => rfl
  have escape : Silent ['%', a, b] := by
    apply silent_of_forall
    simp only [List.forall_mem_cons, List.not_mem_nil, false_imp_iff, implies_true, and_true]
    exact ⟨by decide, not_mem_openers_of_isHex ha, not_mem_openers_of_isHex hb⟩
  have closing : Silent [')'] := fun _ => rfl
  exact (opening.append escape).append closing

theorem silent_literal (s : Text) : Silent ((literal s).flatMap Item.source) := by
  fun_induction literal s with
  | case1 a b s h ih =>
    rw [Bool.and_eq_true] at h
    exact (silent_escape h.1 h.2).append ih
  | case2 a b s _ ih => exact (silent_char _).append ih
  | case3 c s _ ih => exact (silent_char c).append ih
  | case4 => exact silent_nil

/-- A segment adds its own notation as a group just when it has a name. -/
theorem groups_sourceOf_append (s : Segment) (r : Text) :
    groups (sourceOf s ++ r) = (if s.name?.isSome then [sourceOf s] else []) ++ groups r := by
  cases s with
  | static text => exact silent_literal text r
  | dynamic name => rfl
  | star name => rfl
  | epsilon => rfl

theorem groups_flatMap_append (ss : List Segment) (r : Text) :
    groups ((ss.map sourceOf).flatMap ('/' :: ·) ++ r) =
      (Segment.declaring ss).map sourceOf ++ groups r := by
  induction ss with
  | nil => rfl
  | cons s ss ih =>
    have slash : Silent ['/'] := fun _ => rfl
    rw [List.map_cons, List.flatMap_cons, List.append_assoc, ← List.singleton_append, List.append_assoc,
      slash, groups_sourceOf_append, ih, Segment.declaring, Segment.declaring, List.filter_cons]
    split_ifs <;> simp

theorem groups_ofSegments (ss : List Segment) :
    groups (ofSegments ss).source = (Segment.declaring ss).map sourceOf := by
  have caret : Silent ['^'] := fun _ => rfl
  rw [source_ofSegments, ← List.singleton_append, List.append_assoc, caret,
    ← Segment.declaring_visible, pathOf, List.isEmpty_map]
  split_ifs with h
  · rw [List.isEmpty_iff.1 h]
    rfl
  · exact (groups_flatMap_append _ _).trans (List.append_nil _)

/-- Parentheses and brackets of static texts, and their own backslashes, open nothing. -/
example : groups (ofSegments [.static ['(', '[', 'a'], .dynamic ['i'], .static ['\\', '(', ')'],
    .star ['r']]).source = [segmentSource, restSource] := rfl

end Pattern
end Routing
