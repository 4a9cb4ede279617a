import Routing.Proofs.Graph.Insert

/-! The frontier of a walk against the words of the states: simulation in both directions, one
character at a time, with the loops as the only way to stay. -/

namespace Routing

theorem nodup_eraseDups (l : List Nat) : l.eraseDups.Nodup := by
  induction hn : l.length using Nat.strongRecOn generalizing l with
  | ind n ih =>
    cases l with
    | nil => simp
    | cons a l =>
      subst hn
      rw [List.eraseDups_cons, List.nodup_cons, List.mem_eraseDups]
      refine ⟨by simp, ih _ ?_ _ rfl⟩
      exact Nat.lt_succ_of_le (List.length_filter_le _ _)

namespace Graph

variable {α : Type} {g : Graph α} {i j : Nat} {s : Text}

theorem nodup_reach (g : Graph α) (s : Text) : (g.reach s).Nodup := by
  rcases List.eq_nil_or_concat' s with rfl | ⟨s, c, rfl⟩
  · exact List.nodup_singleton _
  · rw [reach_append_singleton]
    exact nodup_eraseDups _

theorem admits_iff {c : Char} : g.admits j c ↔ ∃ k, g.cls? j = some k ∧ k.admits c := by
  simp [admits, Option.any_eq_true]

/-- A walk ends in the states whose words describe the text. -/
theorem Trie.mem_reach (h : Trie g) : j ∈ g.reach s ↔ ∃ w, Leads g w j ∧ Describes w s := by
  induction s using List.reverseRecOn generalizing j with
  | nil =>
    constructor
    · intro hj
      obtain rfl : j = root := by simpa [reach] using hj
      exact ⟨[], .start, .nil⟩
    · intro hx
      obtain ⟨w, hl, hd⟩ := hx
      rcases List.eq_nil_or_concat' w with rfl | ⟨w, k, rfl⟩
      · simp [Leads.nil_iff.1 hl, reach]
      · exact absurd hd Describes.not_append_singleton_nil
  | append_singleton s c ih =>
    rw [reach_append_singleton, mem_step]
    constructor
    · intro hx
      obtain ⟨i, hi, hc, ha⟩ := hx
      obtain ⟨w, hl, hd⟩ := ih.1 hi
      obtain ⟨k, hk, ha⟩ := admits_iff.1 ha
      by_cases hn : j = i
      · -- a state that is its own child goes on with the last class of the same word
        subst hn
        have hr : k.repeats := (h.loop hk).1 hc
        rcases List.eq_nil_or_concat' w with rfl | ⟨w, k', rfl⟩
        · obtain rfl := Leads.nil_iff.1 hl
          obtain rfl := Option.some.inj (hk.symm.trans h.cls_root)
          exact absurd hr (by decide)
        · obtain rfl := Option.some.inj (hk.symm.trans hl.cls?)
          exact ⟨_, hl, Describes.append_singleton_iff.2 ⟨ha, .inr ⟨hr, hd⟩⟩⟩
      · exact ⟨_, hl.step hc hn hk, Describes.append_singleton_iff.2 ⟨ha, .inl hd⟩⟩
    · intro hx
      obtain ⟨w, hl, hd⟩ := hx
      rcases List.eq_nil_or_concat' w with rfl | ⟨w, k, rfl⟩
      · simp [Describes.nil_iff] at hd
      · obtain ⟨ha, hd | ⟨hr, hd⟩⟩ := Describes.append_singleton_iff.1 hd
        · obtain ⟨i, hi, hc, -, hk⟩ := hl.append_singleton
          exact ⟨i, ih.2 ⟨w, hi, hd⟩, hc, admits_iff.2 ⟨k, hk, ha⟩⟩
        · exact ⟨j, ih.2 ⟨_, hl, hd⟩, (h.loop hl.cls?).2 hr, admits_iff.2 ⟨k, hl.cls?, ha⟩⟩

end Graph
end Routing
