import Routing.Proofs.Batch.Runs
import Routing.Proofs.Router.Single

/-! Captures where the path is walked as it stands: with a normalizer that changes nothing, or without
encoding. They belong to a cut of the path by the pattern of the batch that wins, and that cut is one by
the word of the batch as well but for escapes between two stars. -/

namespace Routing

variable {H : Type} {r : Text} {ss : List Segment}

/-- What is walked for a path that captures are read from as a whole is described with its closing
slash. -/
theorem Segment.exists_covers (h : Describes (word ss) (dropClosing r)) :
    ∃ qs, List.Forall₂ Covers (visible ss) qs ∧
      (if (visible ss).getLast?.any isStar then r else dropClosing r) = pathOf qs := by
  obtain ⟨qs, hqs, hr⟩ := describes_word.1 h
  by_cases hc : Closed r
  · obtain ⟨a, ha, rfl⟩ := hc
    rw [dropClosing_append_singleton ha] at hr ⊢
    split_ifs with hl
    · -- the star at the end covers the slash as well
      obtain ⟨vs, name, hv⟩ := exists_of_any_isStar hl
      rw [hv] at hqs ⊢
      obtain ⟨us, t, rfl, hus, ht⟩ := forall₂_append_singleton hqs.flip
      refine ⟨us ++ [t ++ ['/']], List.rel_append hus.flip (.cons ?_ .nil), ?_⟩
      · exact List.append_ne_nil_of_left_ne_nil ht _
      · rw [hr, pathOf_append_singleton, pathOf_append_singleton, List.append_assoc, List.cons_append]
    · exact ⟨qs, hqs, hr⟩
  · rw [dropClosing_of_not hc] at hr ⊢
    exact ⟨qs, hqs, by rw [ite_self, hr]⟩

namespace Router

variable {k : Compiler} {c : Config} {n : Normalizer} {address : Text} {res : Resolution H}

/-- The path of an address in the form that captures are read from. -/
def readPath (c : Config) (address : Text) : Text :=
  let path := rooted (splitAddress address).1
  if c.encodeSegments then path else Percent.decodeUri path

theorem formsOf_eq (h : c.encodeSegments = true → n = .identity) (address : Text) :
    formsOf c n address = .ofPath .identity (readPath c address) := by
  unfold formsOf readPath
  cases hc : c.encodeSegments with
  | true =>
    rw [h hc]
    rfl
  | false => rfl

/-- Where the path is walked as it stands, it falls into pieces for the visible segments of the batch
that wins, and the captures are the pieces of the segments with a parameter. A static text is read as it
stands, except that one between two stars may be read in escapes. -/
theorem pieces_of_resolve (xs : List (Registration H))
    (h : c.encodeSegments = true ∧ n = .identity ∨ c.encodeSegments = false ∧ n = .percent)
    (hres : (run k c n xs).resolve address = some res) :
    ∃ b ∈ inForce k n xs, (run k c n xs).select (workingPath c n address) = some b.entry ∧
      let ss := Segment.visible b.segments
      ∃ ps, (if ss.getLast?.any Segment.isStar then readPath c address
          else dropClosing (readPath c address)) = pathOf ps ∧
        List.Forall₂ Segment.Reads ss ps ∧
        res.hits = Endpoint.deal c.encodeSegments b.endpoints (Segment.captures ss ps) ∧
        ∀ as text zs us p vs, ss = as ++ .static text :: zs → ps = us ++ p :: vs →
          as.length = us.length →
            p = text ∨ '%' ∈ p ∧ (∃ s ∈ as, s.isStar) ∧ ∃ s ∈ zs, s.isStar := by
  have hn : n.Faithful := Normalizer.faithful_of_eq (h.symm.imp And.right And.right)
  have hforms : formsOf c n address = _ := formsOf_eq (fun hc => by
    rcases h with ⟨-, hn⟩ | ⟨hc', -⟩
    · exact hn
    · exact nomatch hc'.symm.trans hc) address
  obtain ⟨b, hb, hs⟩ := exists_batch_of_resolve hres
  obtain ⟨ps, hps, htext, -, hits⟩ := exists_pieces hs hres
  obtain ⟨hf, hd⟩ := mem_candidates.1 hb
  rw [hforms, Entry.textOf_ofPath Normalizer.faithful_identity] at htext
  rw [← walked_formsOf, hforms, PathForms.ofPath, PathForms.walked_trim] at hd
  -- the same path has a cut by the word as well, and the two cuts are compared
  obtain ⟨qs, hqs, hq⟩ := Segment.exists_covers hd
  have hstar : b.entry.pattern.closesWithStar = _ := Pattern.closesWithStar_ofSegments b.segments
  rw [hstar] at htext
  refine ⟨b, hf, hs, ps, htext, hps, hits, ?_⟩
  intro as text zs us p vs hss hps' hl
  exact Segment.static_piece_cases hn (Segment.forall_visible (normal_of_mem_inForce hf)) hps hqs
    (htext.symm.trans hq) hss hps' hl

/-- No escape is in the path, so the text between the stars is read as it stands. -/
theorem pieces_of_resolve_stars : ∃ (res : Resolution Nat) (r s : Text),
    (run .lenient {} .identity [⟨[(['*', 'r', '/', 'a', '/', '*', 's'], 0)], none⟩]).resolve
        ['/', 'x', '/', 'a', '/', 'y', '/'] = some res ∧
      ['/', 'x', '/', 'a', '/', 'y', '/'] = pathOf [r, ['a'], s] ∧
      res.hits = Endpoint.deal true [⟨0, [⟨['r'], false⟩, ⟨['s'], false⟩]⟩] [r, s] := by
  obtain ⟨res, hres⟩ := Option.isSome_iff_exists.1 (show
    ((run .lenient {} .identity [⟨[(['*', 'r', '/', 'a', '/', '*', 's'], 0)], none⟩]).resolve
      ['/', 'x', '/', 'a', '/', 'y', '/']).isSome by decide +kernel)
  obtain ⟨b, hb, -, ps, hpath, hps, hhits, hstatic⟩ := pieces_of_resolve _ (.inl ⟨rfl, rfl⟩) hres
  obtain rfl := eq_of_mem_inForce_singleton hb
  obtain ⟨r, p, s, rfl⟩ := List.length_eq_three.1 hps.length_eq.symm
  have hpath : ['/', 'x', '/', 'a', '/', 'y', '/'] = pathOf [r, p, s] := hpath
  have hp : '%' ∉ p := fun hm => by
    have hmem : '%' ∈ pathOf [r, p, s] := (mem_pathOf_iff (by decide)).2 ⟨p, by simp, hm⟩
    exact absurd (hpath ▸ hmem) (by decide)
  obtain rfl := (hstatic [.star ['r']] ['a'] [.star ['s']] [r] p [s] rfl rfl rfl).resolve_right
    fun h => hp h.1
  exact ⟨res, r, s, hres, hpath, hhits⟩

/-- Between two stars a text is found in escapes where only another place has the text itself, so no cut
by the word has these captures. Without encoding the same happens to an escape that decoding keeps. -/
theorem not_static_pieces :
    ((run .lenient {} .identity [⟨[(['/', '*', 'r', '/', 'a', '/', '*', 's'], 0)], none⟩]).resolve
        ['/', 'x', '/', 'a', '/', 'y', '/', '%', '6', '1', '/', 'z']).map
          (fun res => res.hits.map (·.params.entries)) =
        some [[(['r'], ['x', '/', 'a', '/', 'y']), (['s'], ['z'])]] ∧
      pathOf [['x', '/', 'a', '/', 'y'], ['a'], ['z']] ≠
        ['/', 'x', '/', 'a', '/', 'y', '/', '%', '6', '1', '/', 'z'] ∧
      ((run .lenient ⟨false⟩ .percent [⟨[(['/', '*', 'r', '/', ',', '/', '*', 's'], 0)], none⟩]).resolve
        ['/', 'x', '/', ',', '/', 'y', '/', '%', '2', 'C', '/', 'z']).map
          (fun res => res.hits.map (·.params.entries)) =
        some [[(['r'], ['x', '/', ',', '/', 'y']), (['s'], ['z'])]] ∧
      pathOf [['x', '/', ',', '/', 'y'], [','], ['z']] ≠
        ['/', 'x', '/', ',', '/', 'y', '/', '%', '2', 'C', '/', 'z'] := by
  decide +kernel

end Router

end Routing
