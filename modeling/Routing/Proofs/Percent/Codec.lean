import Routing.Proofs.Normalizer.NormalForm
import Routing.Proofs.Query.RoundTrip

/-! Encoded text and its way back. Encoding writes ASCII, safe characters and escapes of upper-case
digits, from which the decoder of path segments and the decoder of queries both get the text again. The
normal form of an encoded segment is the text with its percent signs and slashes escaped. -/

namespace Routing

open Normalizer (Decodes decodeSegment_of_decodes protect)

namespace Percent

variable {safe : Char → Bool} {c : Char} {s t : Text}

def upperDigits : Text := "0123456789ABCDEF".toList

/-- Text as encoding writes it: all of it is ASCII, and every percent sign starts an escape of
upper-case digits. -/
structure Escaped (s : Text) : Prop where
  ascii : ∀ c ∈ s, c.toNat < 128
  escapes : EachEscape (fun a b => a ∈ upperDigits ∧ b ∈ upperDigits) s

namespace Escaped

theorem plain (hc : c.toNat < 128) (hp : c ≠ '%') : Escaped [c] where
  ascii := by simpa using hc
  escapes := .of_not_mem (by simpa using hp.symm)

theorem flatMap {α : Type} {l : List α} {f : α → Text} (h : ∀ a ∈ l, Escaped (f a)) :
    Escaped (l.flatMap f) where
  ascii c hc := by
    obtain ⟨a, ha, hm⟩ := List.mem_flatMap.1 hc
    exact (h a ha).ascii c hm
  escapes := .flatMap fun a ha => (h a ha).escapes

end Escaped

theorem hexDigit_mem_upperDigits :
    ∀ x < 16, hexDigit x ∈ upperDigits ∧ hexDigit x ≠ '%' ∧ (hexDigit x).toNat < 128 := by decide

theorem escaped_escapeByte (b : UInt8) : Escaped (escapeByte b) := by
  have hb := b.toNat_lt
  obtain ⟨hm, hp, hlt⟩ := hexDigit_mem_upperDigits (b.toNat / 16) (by omega)
  obtain ⟨hm', hp', hlt'⟩ := hexDigit_mem_upperDigits (b.toNat % 16) (by omega)
  refine ⟨?_, .single ⟨hm, hm'⟩ hp hp'⟩
  simp [escapeByte, hlt, hlt']

theorem escaped_encodeWith (h : ∀ c, safe c → c.toNat < 128) (hp : safe '%' = false) (s : Text) :
    Escaped (encodeWith safe s) := by
  refine .flatMap fun c _ => ?_
  split_ifs with hc
  · refine .plain (h c hc) ?_
    rintro rfl
    simp [hp] at hc
  · exact .flatMap fun b _ => escaped_escapeByte b

theorem lt_of_isAlphanum (h : c.isAlphanum) : c.toNat < 128 := by
  have e : c.val.toNat = c.toNat := rfl
  unfold Char.isAlphanum Char.isAlpha Char.isUpper Char.isLower Char.isDigit at h
  simp [UInt32.le_iff_toNat_le, e] at h
  omega

theorem lt_of_componentSafe (h : componentSafe c) : c.toNat < 128 := by
  have all : ∀ d ∈ ['-', '_', '.', '!', '~', '*', '\x27', '(', ')'], d.toNat < 128 := by simp
  rw [componentSafe, Bool.or_eq_true] at h
  rcases h with h | h
  · exact lt_of_isAlphanum h
  · exact all c (List.contains_iff_mem.1 h)

theorem lt_of_segmentSafe (h : segmentSafe c) : c.toNat < 128 := by
  have all : ∀ d ∈ ['$', '&', '+', ',', ';', '=', ':', '@'], d.toNat < 128 := by simp
  rw [segmentSafe, Bool.or_eq_true] at h
  rcases h with h | h
  · exact lt_of_componentSafe h
  · exact all c (List.contains_iff_mem.1 h)

theorem escaped_encodeComponent (s : Text) : Escaped (encodeComponent s) :=
  escaped_encodeWith (fun _ => lt_of_componentSafe) (by decide) s

theorem escaped_encodeSegment (s : Text) : Escaped (encodeSegment s) :=
  escaped_encodeWith (fun _ => lt_of_segmentSafe) (by decide) s

theorem slash_not_mem_encodeSegment (s : Text) : '/' ∉ encodeSegment s :=
  not_mem_encodeWith (by decide) (by decide) (by decide)

theorem decodes_encodeSegment (s : Text) : Decodes (encodeSegment s) s :=
  ⟨wellFormed_encodeWith (by decide), decode?_encodeWith (by decide) s⟩

theorem decodeOrKeep_encodeSegment (s : Text) : decodeOrKeep (encodeSegment s) = s := by
  rw [decodeOrKeep, (decodes_encodeSegment s).2]
  rfl

theorem encodeSegment_ne_nil (h : s ≠ []) : encodeSegment s ≠ [] := by
  intro he
  have hd := decodeOrKeep_encodeSegment s
  rw [he] at hd
  exact h (hd.symm.trans (by decide))

theorem not_mem_encodeWith_of_all {cs : Text}
    (h : cs.all fun c => ! safe c && c != '%' && ! c.isAlphanum) : ∀ c ∈ cs, c ∉ encodeWith safe s := by
  intro c hc
  have hx := List.all_eq_true.1 h c hc
  simp only [Bool.and_eq_true, Bool.not_eq_true', bne_iff_ne] at hx
  exact not_mem_encodeWith hx.1.1 hx.1.2 hx.2

/-- Whatever the text, its encodings are escaped, hold no mark of an address or of a query, and are
decoded to the text again. -/
theorem decode_encode (s : Text) :
    decodeOrKeep (encodeSegment s) = s ∧
      Query.decodeForm (encodeComponent s) = s ∧
      Normalizer.percent.segment (encodeSegment s) = protect s ∧
      Escaped (encodeSegment s) ∧ Escaped (encodeComponent s) ∧
      (∀ c ∈ ['/', '?', '#'], c ∉ encodeSegment s) ∧
      ∀ c ∈ ['/', '?', '#', '&', '=', '+', '[', ']'], c ∉ encodeComponent s := by
  refine ⟨decodeOrKeep_encodeSegment s, Query.decodeForm_encodeComponent s, ?_,
    escaped_encodeSegment s, escaped_encodeComponent s, not_mem_encodeWith_of_all (by decide),
    not_mem_encodeWith_of_all (by decide)⟩
  exact decodeSegment_of_decodes (slash_not_mem_encodeSegment s) (decodes_encodeSegment s)

end Percent

end Routing
