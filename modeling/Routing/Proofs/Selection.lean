import Routing.Router.Resolve
import Mathlib.Tactic

/-! The choice among entries: specificities are linearly ordered, and the chosen entry is the first of
those that no other exceeds. -/

namespace Routing

instance : Std.TransOrd Specificity :=
  inferInstanceAs (Std.TransCmp (compareLex (compareOn fun s : Specificity => s.digits.length)
    (compareOn Specificity.digits)))

instance : Std.LawfulEqOrd Specificity where
  eq_of_compare {a b} h := by
    have h : compare a.digits b.digits = .eq := (Ordering.then_eq_eq.1 h).2
    exact congrArg Specificity.mk (Std.LawfulEqCmp.eq_of_compare h)

namespace Specificity

variable {a b c : Specificity}

theorem not_lt_trans (hab : compare a b ≠ .lt) (hbc : compare b c ≠ .lt) : compare a c ≠ .lt := by
  intro hac
  apply hab
  apply Std.TransCmp.lt_of_lt_of_isLE hac
  rwa [← Std.OrientedCmp.isGE_iff_isLE, ← Ordering.ne_lt_iff_isGE]

theorem lt_of_not_lt (h : compare a b ≠ .lt) (hne : compare a b ≠ .eq) : compare b a = .lt := by
  rw [← Std.OrientedCmp.gt_iff_lt]
  cases hc : compare a b with
  | lt => exact absurd hc h
  | eq => exact absurd hc hne
  | gt => rfl

theorem compare_of_length_eq (h : a.digits.length = b.digits.length) :
    compare a b = compare a.digits b.digits := by
  change (compare a.digits.length b.digits.length).then _ = _
  rw [Nat.compare_eq_eq.2 h]
  rfl

end Specificity

namespace Entry

variable {H : Type}

theorem best?_append_singleton (es : List (Entry H)) (e : Entry H) :
    best? (es ++ [e]) =
      match best? es with
      | none => some e
      | some b => if compare b.specificity e.specificity = .lt then some e else some b := by
  rw [best?, List.foldl_append]
  rfl

theorem best?_eq_none {es : List (Entry H)} : best? es = none ↔ es = [] := by
  rcases List.eq_nil_or_concat' es with rfl | ⟨es, e, rfl⟩
  · simp [best?]
  · rw [best?_append_singleton]
    split
    · simp
    · split_ifs <;> simp

theorem isSome_best? {es : List (Entry H)} : (best? es).isSome ↔ ∃ e, e ∈ es := by
  rw [Option.isSome_iff_ne_none, Ne, best?_eq_none, List.eq_nil_iff_forall_not_mem]
  push Not
  rfl

theorem mem_of_best? {es : List (Entry H)} {b : Entry H} (h : best? es = some b) :
    b ∈ es ∧ ∀ e ∈ es, compare b.specificity e.specificity ≠ .lt := by
  induction es using List.reverseRecOn generalizing b with
  | nil => simp [best?] at h
  | append_singleton es e ih =>
    rw [best?_append_singleton] at h
    cases hb : best? es with
    | none =>
      rw [hb] at h
      obtain rfl := Option.some.inj h
      simp [best?_eq_none.1 hb, Std.ReflCmp.compare_self]
    | some c =>
      obtain ⟨hc, hle⟩ := ih hb
      rw [hb] at h
      simp only at h
      split_ifs at h with hlt
      · obtain rfl := Option.some.inj h
        refine ⟨by simp, ?_⟩
        intro d hd hdlt
        rcases List.mem_append.1 hd with hd | hd
        · exact hle d hd (Std.TransCmp.lt_trans hlt hdlt)
        · simp [List.mem_singleton.1 hd, Std.ReflCmp.compare_self] at hdlt
      · obtain rfl := Option.some.inj h
        refine ⟨by simp [hc], ?_⟩
        intro d hd
        rcases List.mem_append.1 hd with hd | hd
        · exact hle d hd
        · rwa [List.mem_singleton.1 hd]

/-- The second one only if it exceeds the first. -/
def better : Option (Entry H) → Option (Entry H) → Option (Entry H)
  | none, e => e
  | some b, none => some b
  | some b, some e => if compare b.specificity e.specificity = .lt then some e else some b

theorem better_assoc (x y z : Option (Entry H)) : better (better x y) z = better x (better y z) := by
  cases x with
  | none => rfl
  | some a =>
    cases y with
    | none => rfl
    | some b =>
      cases z with
      | none =>
        simp only [better]
        split_ifs <;> rfl
      | some c =>
        by_cases hab : compare a.specificity b.specificity = .lt <;>
          by_cases hbc : compare b.specificity c.specificity = .lt
        · simp [better, hab, hbc, Std.TransCmp.lt_trans hab hbc]
        · simp [better, hab, hbc]
        · simp [better, hab, hbc]
        · simp [better, hab, hbc, Specificity.not_lt_trans hab hbc]

theorem best?_append (l m : List (Entry H)) : best? (l ++ m) = better (best? l) (best? m) := by
  induction m using List.reverseRecOn with
  | nil =>
    rw [List.append_nil]
    cases best? l <;> rfl
  | append_singleton m e ih =>
    have step : ∀ es : List (Entry H), best? (es ++ [e]) = better (best? es) (some e) := by
      intro es
      rw [best?_append_singleton]
      cases best? es <;> rfl
    rw [← List.append_assoc, step, step, ih, better_assoc]

end Entry
end Routing
