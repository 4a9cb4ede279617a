import Routing.Proofs.Batch.Ending
import Routing.Proofs.Router.Forms

/-! The walk and the patterns agree: an entry that is found for the form that is walked has a pattern
that reads the other form, so a path resolves as soon as some word describes it. -/

namespace Routing

variable {H : Type}

theorem Entry.isSome_hits? {e : Entry H} {p : PathForms} {ts : List Text} (decode : Bool)
    (h : Pattern.Reads e.pattern.items p.read ts) : (e.hits? decode p).isSome := by
  rw [hits?_eq, Option.isSome_map, textOf]
  split_ifs with hs
  · rw [Bool.and_eq_true] at hs
    obtain ⟨us, hu⟩ := h.exists_append ((Pattern.closesWithStar_iff _).1 hs.2) ['/']
    exact Pattern.isSome_captures? hu
  · exact Pattern.isSome_captures? h

namespace Router

variable {k : Compiler} {c : Config} {n : Normalizer} {xs : List (Registration H)}

/-- Whatever is walked is read. -/
theorem isSome_hits?_of_candidate (h : c.encodeSegments = true → n.Faithful) {b : Batch H}
    {address : Text} (hb : b ∈ candidates k n xs (workingPath c n address)) :
    (b.entry.hits? c.encodeSegments (formsOf c n address)).isSome := by
  obtain ⟨hf, hd⟩ := mem_candidates.1 hb
  rw [← walked_formsOf] at hd
  suffices ∃ ts, Pattern.Reads b.entry.pattern.items (formsOf c n address).read ts by
    obtain ⟨ts, hts⟩ := this
    exact Entry.isSome_hits? _ hts
  unfold formsOf at hd ⊢
  split_ifs at hd ⊢ with hc
  · rw [(PathForms.walked_ofPath (h hc) _).1] at hd
    exact Segment.exists_reads_of_describes_path (h hc) (normal_of_mem_inForce hf) hd
  · -- without encoding both forms are the same
    rw [(PathForms.walked_ofPath Normalizer.faithful_identity _).1] at hd
    exact Segment.exists_reads_of_describes hd

theorem isSome_resolve (h : c.encodeSegments = true → n.Faithful) (address : Text) :
    ((run k c n xs).resolve address).isSome ↔
      ∃ b, b ∈ candidates k n xs (workingPath c n address) := by
  rw [← isSome_select k c, resolve_run]
  cases hs : (run k c n xs).select (workingPath c n address) with
  | none => simp
  | some e =>
    obtain ⟨⟨b, hb, rfl⟩, -⟩ := of_select k c n xs _ hs
    simp [isSome_hits?_of_candidate h hb]

/-- A path resolves just when the word of some accepted batch describes its working path, and the
pattern of an entry that wins reads the path. -/
theorem resolves_iff_described (h : c.encodeSegments = true → n = .percent ∨ n = .identity)
    (address : Text) :
    (((run k c n xs).resolve address).isSome ↔
      ∃ a ∈ accepted k n xs, Describes a.batch.word (workingPath c n address)) ∧
    ∀ e, (run k c n xs).select (workingPath c n address) = some e →
      (e.hits? c.encodeSegments
        ((run k c n xs).pathForms (rooted (splitAddress address).1))).isSome := by
  have hf : c.encodeSegments = true → n.Faithful := by
    intro hc
    rcases h hc with rfl | rfl
    · exact Normalizer.faithful_percent
    · exact Normalizer.faithful_identity
  refine ⟨?_, ?_⟩
  · rw [isSome_resolve hf, exists_mem_candidates]
  · intro e he
    obtain ⟨⟨b, hb, rfl⟩, -⟩ := of_select k c n xs _ he
    rw [pathForms_run]
    exact isSome_hits?_of_candidate hf hb

/-- An escape in lower case is found by a pattern with the character itself. -/
theorem resolves_lower_case_escape :
    ((run .lenient {} .percent [⟨[(['/', 'é'], 0)], none⟩]).resolve
      ['/', '%', 'c', '3', '%', 'a', '9', '?', 'q']).isSome :=
  (resolves_iff_described (fun _ => .inl rfl) _).1.2 (by decide +kernel)

end Router
end Routing
