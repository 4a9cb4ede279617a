import Routing.Proofs.Batch.Lifting

/-! The normal form is canonical. A segment that decodes is written anew from what it decodes to, with
escapes for percent signs and slashes only, and another one is left alone. Both are normal forms of
themselves, and so are the paths that are made of them. -/

namespace Routing.Normalizer

open Percent

variable {n : Normalizer} {s t : Text}

/-- Every percent sign starts an escape of two digits, and the text decodes to UTF-8. -/
def Decodable (s : Text) : Prop :=
  EachEscape (fun a b => isHex a ∧ isHex b) s ∧ (decode? s).isSome

theorem decodable_iff : Decodable s ↔ ∃ t, Decodes s t := by
  simp [Decodable, Decodes, ← wellFormed_iff_eachEscape, Option.isSome_iff_exists]

theorem eachEscape_protect (s : Text) :
    EachEscape (fun a b => a = '2' ∧ (b = '5' ∨ b = 'F')) (protect s) := by
  refine .flatMap fun c _ => ?_
  split_ifs with hp
  · exact .single ⟨rfl, .inl rfl⟩ (by decide) (by decide)
  · exact .single ⟨rfl, .inr rfl⟩ (by decide) (by decide)
  · exact .of_not_mem (by simpa using Ne.symm hp)

theorem decodeSegment_eq_iff {d e : Text} (hs : '/' ∉ s) (ht : '/' ∉ t) (hd : Decodes s d)
    (he : Decodes t e) : decodeSegment s = decodeSegment t ↔ decode? s = decode? t := by
  rw [decodeSegment_of_decodes hs hd, decodeSegment_of_decodes ht he, hd.2, he.2, Option.some.injEq]
  exact ⟨protect_injective, congrArg protect⟩

theorem Faithful.path_idem (h : n.Faithful)
    (hi : ∀ s, '/' ∉ s → n.segment (n.segment s) = n.segment s) (p : Text) :
    n.path (n.path p) = n.path p := by
  rw [h.path_eq (n.path p), h.splitOn_path, List.map_map, h.path_eq p]
  congr 1
  exact List.map_congr_left fun s hs => hi s (not_mem_of_mem_splitOn hs)

/-- Normalization is idempotent, keeps slashes where they are, and makes segments equal just when they
decode to the same text. What does not decode stays as it is. -/
theorem segment_canonical (hs : '/' ∉ s) (ht : '/' ∉ t) :
    ('/' ∉ percent.segment s ∧ (percent.segment s = [] ↔ s = []) ∧
        percent.segment (percent.segment s) = percent.segment s) ∧
      (Decodable s → EachEscape (fun a b => a = '2' ∧ (b = '5' ∨ b = 'F')) (percent.segment s) ∧
        decode? (percent.segment s) = decode? s) ∧
      (¬ Decodable s → percent.segment s = s) ∧
      (Decodable s → Decodable t →
        (percent.segment s = percent.segment t ↔ decode? s = decode? t)) ∧
      ∀ p, percent.path (percent.path p) = percent.path p ∧
        (percent.path p).count '/' = p.count '/' := by
  have hf := faithful_percent
  refine ⟨⟨hf.slash_not_mem hs, hf.eq_nil hs, decodeSegment_idem hs⟩, fun h => ?_, fun h => ?_,
    fun h h' => ?_, fun p => ⟨hf.path_idem (fun _ => decodeSegment_idem) p, hf.count_slash_path p⟩⟩
  · obtain ⟨d, hd⟩ := decodable_iff.1 h
    have hp : percent.segment s = protect d := decodeSegment_of_decodes hs hd
    rw [hp, decode?_protect, hd.2]
    exact ⟨eachEscape_protect d, rfl⟩
  · rw [decodable_iff, not_exists] at h
    exact decodeSegment_of_not_decodes h
  · obtain ⟨d, hd⟩ := decodable_iff.1 h
    obtain ⟨e, he⟩ := decodable_iff.1 h'
    exact decodeSegment_eq_iff hs ht hd he

/-- Two spellings of one segment, with a slash that stays escaped. -/
theorem segment_canonical_spellings :
    percent.segment ['a', '%', '2', 'f', '%', '7', 'e'] =
        percent.segment ['%', '6', '1', '%', '2', 'F', '~'] ∧
      EachEscape (fun a b => a = '2' ∧ (b = '5' ∨ b = 'F'))
        (percent.segment ['a', '%', '2', 'f', '%', '7', 'e']) := by
  have h := segment_canonical (s := ['a', '%', '2', 'f', '%', '7', 'e'])
    (t := ['%', '6', '1', '%', '2', 'F', '~']) (by decide) (by decide)
  have hs : Decodable ['a', '%', '2', 'f', '%', '7', 'e'] :=
    decodable_iff.2 ⟨['a', '/', '~'], by decide +kernel, by decide +kernel⟩
  have ht : Decodable ['%', '6', '1', '%', '2', 'F', '~'] :=
    decodable_iff.2 ⟨['a', '/', '~'], by decide +kernel, by decide +kernel⟩
  exact ⟨(h.2.2.2.1 hs ht).2 (by decide +kernel), (h.2.1 hs).1⟩

end Routing.Normalizer
