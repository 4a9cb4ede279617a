import Routing.Proofs.Batch.Extraction
import Routing.Proofs.Batch.Rendering
import Routing.Proofs.Router.Single

/-! What stars capture of an address, whatever the normalizer does. Captures are read from the path as it
was sent, which is cut at slashes, so they are parts of it. The one character that need not have been sent
is a closing slash: it is put back where the normal form has one. -/

namespace Routing

variable {H : Type} {p s t w : Text} {ps : List Text}

theorem cons_slash_infix_pathOf (h : p ∈ ps) : '/' :: p <:+: pathOf ps := by
  obtain ⟨l, m, rfl⟩ := List.append_of_mem h
  rw [pathOf_of_ne_nil (by simp), List.flatMap_append, List.flatMap_cons]
  exact ⟨l.flatMap ('/' :: ·), m.flatMap ('/' :: ·), by simp⟩

theorem infix_of_cons {c : Char} (h : c :: t <:+: c :: s) : t <:+: s := by
  rcases List.infix_cons_iff.1 h with h | h
  · exact (List.cons_prefix_cons.1 h).2.isInfix
  · exact (List.suffix_cons c t).isInfix.trans h

theorem suffix_of_cons {c : Char} (h : c :: t <:+ c :: s) : t <:+ s := by
  rcases List.suffix_cons_iff.1 h with h | h
  · exact (List.cons.inj h).2 ▸ List.suffix_rfl
  · exact (List.suffix_cons c t).trans h

theorem dropLeading_suffix (c : Char) (s : Text) : s.dropLeading c <:+ s := by
  cases s with
  | nil => exact List.suffix_rfl
  | cons d s =>
    rw [Text.dropLeading]
    split_ifs
    · exact List.suffix_cons d s
    · exact List.suffix_rfl

/-- Captures are read from a beginning of the path, or from the path with a slash that only its normal
form has. -/
theorem Entry.textOf_trim (e : Entry H) (w p : Text) :
    e.textOf (.trim w p) <+: p ∨
      Closed w ∧ p.getLast? ≠ some '/' ∧ e.pattern.closesWithStar ∧
        e.textOf (.trim w p) = p ++ ['/'] := by
  unfold PathForms.trim
  by_cases hw : (1 < w.length && w.endsWith '/') = true
  · rw [if_pos hw, textOf, Bool.true_and, Text.dropTrailing]
    split_ifs with hs hl hl
    · obtain ⟨q, rfl⟩ := List.getLast?_eq_some_iff.1 hl
      exact .inl (by simp)
    · exact .inr ⟨closing_slash_iff.1 hw, hl, hs, rfl⟩
    · exact .inl (List.dropLast_prefix p)
    · exact .inl List.prefix_rfl
  · rw [if_neg hw, textOf, Bool.false_and, if_neg (by simp)]
    exact .inl List.prefix_rfl

theorem infix_or_closes (h0 : t ≠ []) (hs : ('/' :: s).getLast? ≠ some '/')
    (h : '/' :: t <:+: '/' :: s ++ ['/']) : t <:+: s ∨ ∃ u, u ≠ [] ∧ u <:+ s ∧ t = u ++ ['/'] := by
  rcases List.infix_concat_iff.1 h with hx | hx
  · rcases List.suffix_concat_iff.1 hx with hn | ⟨u, hu, hsuffix⟩
    · exact nomatch hn
    cases u with
    | nil => exact absurd (List.cons.inj hu).2 h0
    | cons c u =>
      obtain ⟨rfl, rfl⟩ := List.cons.inj hu
      refine .inr ⟨u, ?_, suffix_of_cons hsuffix, rfl⟩
      rintro rfl
      obtain ⟨a, ha⟩ := hsuffix
      rw [← ha] at hs
      exact hs List.getLast?_concat
  · exact .inl (infix_of_cons hx)

theorem Segment.forall₂_star_captures {ss : List Segment} (h : List.Forall₂ Reads ss ps) :
    List.Forall₂ (fun q t => q.decode = false → t ≠ [] ∧ t ∈ ps) (ss.filterMap param?)
      (captures ss ps) := by
  refine (forall₂_captures_iff h.length_eq).2 (List.forall₂_iff_zip.2 ⟨h.length_eq, ?_⟩)
  intro s p hz q hq hstar
  have hr : s.Reads p := (List.forall₂_iff_zip.1 h).2 hz
  cases s with
  | star name => exact ⟨hr, (List.of_mem_zip hz).2⟩
  | dynamic name =>
    obtain rfl := Option.some.inj hq
    exact nomatch hstar
  | static text | epsilon => exact nomatch hq

namespace Router

variable {k : Compiler} {c : Config} {n : Normalizer} {address : Text} {res : Resolution H}

/-- The normal form of a path closes with a slash that the path does not have. -/
def MakesSlash (n : Normalizer) (p : Text) : Prop := Closed (n.path p) ∧ p.getLast? ≠ some '/'

/-- A piece of what captures are read from, against the path as it was sent. -/
theorem sent_of_mem {b : Batch H} (hc : c.encodeSegments = true) (h0 : t ≠ [])
    (h : t ∈ ps) (htext : b.entry.textOf (formsOf c n address) = pathOf ps) :
    t <:+: (splitAddress address).1 ∨
      MakesSlash n (rooted (splitAddress address).1) ∧ b.entry.pattern.closesWithStar ∧
        ∃ u, u ≠ [] ∧ u <:+ (splitAddress address).1 ∧ t = u ++ ['/'] := by
  have hp := cons_slash_infix_pathOf h
  have hpath := dropLeading_suffix '/' (splitAddress address).1
  rw [← htext, formsOf, if_pos hc, PathForms.ofPath] at hp
  rcases b.entry.textOf_trim (n.path (rooted (splitAddress address).1))
    (rooted (splitAddress address).1) with hx | ⟨hw, hl, hs, hx⟩
  · rw [rooted_eq] at hx hp
    exact .inl ((infix_of_cons (hp.trans hx.isInfix)).trans hpath.isInfix)
  · rw [hx] at hp
    have hends := rooted_eq (splitAddress address).1 ▸ hl
    rw [rooted_eq] at hp
    rcases infix_or_closes h0 hends hp with hp | ⟨u, hu, hsuffix, rfl⟩
    · exact .inl (hp.trans hpath.isInfix)
    · exact .inr ⟨⟨hw, hl⟩, hs, u, hu, hsuffix.trans hpath, rfl⟩

/-- The value of a star is a part of the path as it was sent. Only where normalization makes a closing
slash, and the batch closes with a star, a value may be the end of the path with a slash behind it. -/
theorem star_values_of_resolve (xs : List (Registration H)) (hc : c.encodeSegments = true)
    (hres : (run k c n xs).resolve address = some res) :
    let path := (splitAddress address).1
    ∃ b ∈ inForce k n xs, (run k c n xs).select (workingPath c n address) = some b.entry ∧
      List.Forall₂ (fun e x => x.handler = e.handler ∧
          ∀ m p, e.param? m = some p → p.decode = false → ∃ v, x.params.find? m = some v ∧
            (v <:+: path ∨ MakesSlash n (rooted path) ∧
              (Segment.visible b.segments).getLast?.any Segment.isStar ∧
              ∃ u, u ≠ [] ∧ u <:+ path ∧ v = u ++ ['/']))
        b.endpoints res.hits := by
  intro path
  obtain ⟨b, hb, hs⟩ := exists_batch_of_resolve hres
  obtain ⟨ps, hps, htext, -, hits⟩ := exists_pieces hs hres
  refine ⟨b, (mem_candidates.1 hb).1, hs, ?_⟩
  rw [hits]
  apply Endpoint.forall₂_deal_of (R := fun p t => p.decode = false → t ≠ [] ∧ t ∈ ps)
  · intro e us hr
    refine ⟨rfl, fun m p hm hp => ?_⟩
    obtain ⟨t, ht, hv⟩ := Endpoint.find?_hit c.encodeSegments hr hm
    obtain ⟨h0, hmem⟩ := ht hp
    have hvalue : Endpoint.value c.encodeSegments p t = t := by simp [Endpoint.value, hp]
    refine ⟨t, hvalue ▸ hv, ?_⟩
    rw [← Pattern.closesWithStar_ofSegments]
    exact sent_of_mem hc h0 hmem htext
  · rw [Batch.flatMap_params_endpoints]
    exact Segment.forall₂_star_captures hps

/-- A normalizer under which a tilde stands for a slash. -/
def tilde : Normalizer := .substitute fun c => if c = '~' then ['/'] else [c]

/-- Two stars of one route, of which the first one takes what was sent. -/
theorem star_values_of_resolve_tilde : ∃ (res : Resolution Nat) (x : Hit Nat) (v : Text),
    (run .lenient {} tilde [⟨[(['*', 'r', '/', 'b', '/', '*', 's'], 0)], none⟩]).resolve
        ['/', 'a', '~', '/', 'b', '/', 'c', '~', '?', 'q'] = some res ∧
      res.hits = [x] ∧ x.params.find? ['r'] = some v ∧
      (v <:+: ['/', 'a', '~', '/', 'b', '/', 'c', '~'] ∨
        ∃ u, u ≠ [] ∧ u <:+ ['/', 'a', '~', '/', 'b', '/', 'c', '~'] ∧ v = u ++ ['/']) := by
  obtain ⟨res, hres⟩ := Option.isSome_iff_exists.1 (show
    ((run .lenient {} tilde [⟨[(['*', 'r', '/', 'b', '/', '*', 's'], 0)], none⟩]).resolve
      ['/', 'a', '~', '/', 'b', '/', 'c', '~', '?', 'q']).isSome by decide +kernel)
  obtain ⟨b, hb, -, h⟩ := star_values_of_resolve _ rfl hres
  obtain rfl := eq_of_mem_inForce_singleton hb
  obtain ⟨x, hits, ⟨-, hx⟩, ht, hhits⟩ := List.forall₂_cons_left_iff.1 h
  obtain ⟨v, hv, hsent⟩ := hx ['r'] ⟨['r'], false⟩ rfl rfl
  rw [List.forall₂_nil_left_iff.1 ht] at hhits
  exact ⟨res, x, v, hres, hhits, hv, hsent.imp_right fun h => h.2.2⟩

/-- A slash that only the normal form has is put behind the path, so the star takes what was not sent. -/
theorem not_star_value_infix :
    ((run .lenient {} tilde [⟨[(['/', '*', 'r'], 0)], none⟩]).resolve ['/', 'a', '~']).map
        (fun res => res.hits.map fun x => x.params.find? ['r']) = some [some ['a', '~', '/']] ∧
      ¬ ['a', '~', '/'] <:+: ['/', 'a', '~'] :=
  ⟨rfl, by decide⟩

end Router

end Routing
