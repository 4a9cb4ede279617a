import Routing.Proofs.Batch.Extraction
import Routing.Proofs.Router.RoundTrip

/-! From an address that resolves to the address that is generated from its values. Values are decoded
from any spelling and written in one of their own, and both spellings have the same normal form, as has
a static text and every spelling of it. -/

namespace Routing

open Normalizer (Decodes)
open Percent (encodeSegment decodes_encodeSegment slash_not_mem_encodeSegment)

variable {H : Type} {d : Dict Text} {ss : List Segment} {s : Segment} {p : Text} {ps : List Text}

namespace Segment

/-- A segment is written in the normal form of the piece that it was read from. -/
theorem exists_render (hn : s.Normal .percent) (hs : s.isStar = false)
    (hc : s.Covers (Normalizer.percent.path p))
    (hq : ∀ q ∈ s.param?, Endpoint.Returns true d q p ∧ ∃ v, Decodes p v) :
    ∃ t, s.render true d = some t ∧ Normalizer.percent.path t = Normalizer.percent.path p := by
  have hf := Normalizer.faithful_percent
  cases s with
  | static text =>
    obtain ⟨r, hr, -, rfl⟩ := hn
    refine ⟨_, rfl, ?_⟩
    rw [hf.path_of_not_mem (hf.slash_not_mem hr), hc]
    exact Normalizer.decodeSegment_idem hr
  | dynamic name =>
    obtain ⟨hr, v, hv⟩ := hq _ rfl
    have hp : '/' ∉ p := fun hm => hc.2 (hf.slash_mem_path hm)
    have hvalue : d.find? name = some v := by
      rw [hr, Endpoint.value, Percent.decodeOrKeep, hv.2]
      rfl
    refine ⟨encodeSegment v, by simp [render, hvalue], ?_⟩
    rw [hf.path_of_not_mem (slash_not_mem_encodeSegment v), hf.path_of_not_mem hp]
    exact (Normalizer.decodeSegment_of_decodes (slash_not_mem_encodeSegment v)
      (decodes_encodeSegment v)).trans (Normalizer.decodeSegment_of_decodes hp hv).symm
  | star name => cases hs
  | epsilon =>
    refine ⟨[], rfl, ?_⟩
    rw [hf.path_nil, hc]

theorem exists_forall₂_render (hn : ∀ s ∈ ss, s.Normal .percent) (hs : ∀ s ∈ ss, s.isStar = false)
    (hc : List.Forall₂ (fun s p => s.Covers (Normalizer.percent.path p)) ss ps)
    (hq : List.Forall₂ (fun s p => ∀ q ∈ s.param?, Endpoint.Returns true d q p ∧ ∃ v, Decodes p v) ss
      ps) :
    ∃ ts, List.Forall₂ (fun s t => s.render true d = some t) ss ts ∧
      ts.map Normalizer.percent.path = ps.map Normalizer.percent.path := by
  induction hc with
  | nil => exact ⟨[], .nil, rfl⟩
  | cons hp _ ih =>
    rw [List.forall_mem_cons] at hn hs
    obtain ⟨hq, hqs⟩ := List.forall₂_cons.1 hq
    obtain ⟨t, ht, htp⟩ := exists_render hn.1 hs.1 hp hq
    obtain ⟨ts, hts, htps⟩ := ih hn.2 hs.2 hqs
    exact ⟨t :: ts, .cons ht hts, by rw [List.map_cons, List.map_cons, htp, htps]⟩

end Segment

namespace Router

variable {k : Compiler} {c : Config} {xs : List (Registration H)} {name address : Text} {b : Batch H}

/-- Without a star an address resolves to the captures of the one cut that its path has. -/
theorem exists_cut (hc : c.encodeSegments = true) (hn : ∀ s ∈ b.segments, s.Normal .percent)
    (hs : (run k c .percent xs).select (workingPath c .percent address) = some b.entry)
    (hstar : ∀ s ∈ b.segments, s.isStar = false) :
    ∃ res ps, (run k c .percent xs).resolve address = some res ∧
      dropClosing (rooted (splitAddress address).1) = pathOf ps ∧
      List.Forall₂ (fun s p => s.Covers (Normalizer.percent.path p)) (Segment.visible b.segments) ps ∧
      b.pattern.captures? (pathOf ps) = some (Segment.captures (Segment.visible b.segments) ps) ∧
      res.hits = Endpoint.deal true b.endpoints
        (Segment.captures (Segment.visible b.segments) ps) := by
  have hf := Normalizer.faithful_percent
  -- a batch in force with this entry has the same word
  obtain ⟨⟨b', hb', he⟩, -⟩ := of_select k c .percent xs _ hs
  have hword : Describes b.word (workingPath c .percent address) := by
    rw [← b.word_entry, ← he, b'.word_entry]
    exact (mem_candidates.1 hb').2
  obtain ⟨res, hres⟩ := Option.isSome_iff_exists.1
    ((isSome_resolve (fun _ => hf) address).2 ⟨b', hb'⟩)
  obtain ⟨ps, hps, htext, hcaptures, hits⟩ := exists_pieces hs hres
  have hlast : b.entry.pattern.closesWithStar = false := by
    rw [Batch.entry, Batch.pattern, Pattern.closesWithStar_ofSegments]
    cases hl : (Segment.visible b.segments).getLast? with
    | none => rfl
    | some s => exact Segment.forall_visible hstar s (List.mem_of_getLast? hl)
  have hread : dropClosing (rooted (splitAddress address).1) = pathOf ps := by
    rw [← htext, formsOf, if_pos hc, Entry.textOf_ofPath hf, hlast, if_neg (by simp)]
  have hworking : workingPath c .percent address = Normalizer.percent.path (pathOf ps) := by
    rw [workingPath, if_pos hc, ← hf.path_dropClosing, hread]
  exact ⟨res, ps, hres, hread, Segment.covers_path_of_reads hf hn hstar hps (hworking ▸ hword),
    hcaptures, hc ▸ hits⟩

/-- The values of an address give an address of the same normal form, if the batch that wins holds a
name, has no star and pairwise different parameters, and every capture decodes. -/
theorem address_of_resolve (hc : c.encodeSegments = true)
    (hn : latestNamed name (accepted k .percent xs) = some b)
    (hs : (run k c .percent xs).select (workingPath c .percent address) = some b.entry)
    (hstar : ∀ s ∈ b.segments, s.isStar = false) (hd : (b.params.map Param.name).Nodup)
    (hdecodes : ∀ ts, b.pattern.captures? (dropClosing (rooted (splitAddress address).1)) = some ts →
      ∀ t ∈ ts, Percent.wellFormed t ∧ (Percent.decode? t).isSome) :
    ∃ res path, (run k c .percent xs).resolve address = some res ∧
      (run k c .percent xs).address name { params := merged res.hits } = .ok path ∧
      Normalizer.percent.path path =
        dropClosing (Normalizer.percent.path (rooted (splitAddress address).1)) := by
  have hf := Normalizer.faithful_percent
  have hnormal : ∀ s ∈ b.segments, s.Normal .percent := by
    obtain ⟨a, ha, rfl⟩ := Option.map_eq_some_iff.1 hn
    exact normal_of_mem_accepted (List.mem_filter.1 (List.mem_of_getLast? ha)).1
  obtain ⟨res, ps, hres, hread, hcovers, hcaptures, hits⟩ := exists_cut hc hnormal hs hstar
  have hlen := hcovers.length_eq
  have hreturns : List.Forall₂ (Endpoint.Returns true (merged res.hits))
      ((Segment.visible b.segments).filterMap Segment.param?)
      (Segment.captures (Segment.visible b.segments) ps) := by
    rw [hits, ← b.flatMap_params_endpoints]
    refine Endpoint.returns_merged ?_ (b.params_eq ▸ hd)
    rw [b.flatMap_params_endpoints, Segment.length_captures hlen]
  -- each capture decodes, so its parameter has a value that the segment can be written with
  have hvalues : List.Forall₂
      (fun s p => ∀ q ∈ s.param?, Endpoint.Returns true (merged res.hits) q p ∧ ∃ v, Decodes p v)
      (Segment.visible b.segments) ps := by
    refine (Segment.forall₂_captures_iff hlen).1 (List.forall₂_iff_zip.2 ⟨hreturns.length_eq, ?_⟩)
    intro q t hz
    obtain ⟨hw, hv⟩ := hdecodes _ (hread ▸ hcaptures) t (List.of_mem_zip hz).2
    obtain ⟨v, hv⟩ := Option.isSome_iff_exists.1 hv
    exact ⟨(List.forall₂_iff_zip.1 hreturns).2 hz, v, hw, hv⟩
  obtain ⟨ts, hts, hpath⟩ := Segment.exists_forall₂_render (Segment.forall_visible hnormal)
    (Segment.forall_visible hstar) hcovers hvalues
  refine ⟨res, pathOf ts, hres, ?_, ?_⟩
  · refine (address_run hn (hts.imp fun _ _ h => hc ▸ h)).trans (congrArg _ ?_)
    exact List.append_nil _
  · rw [hf.path_pathOf, hpath, ← hf.path_pathOf, ← hread, hf.path_dropClosing]

/-- Values of two routes, one of them with a slash in it, and a static text that was sent in escapes. -/
theorem address_of_resolve_two_routes : ∃ res path,
    (run .lenient {} .percent [⟨[(['a', '/', ':', 'i'], 0), ([':', 'j'], 1)], some ['n']⟩]).resolve
        ['/', '%', '6', '1', '/', '%', 'c', '3', '%', 'a', '9', '/', 'x', '%', '2', 'f', '/', '?', 'q'] =
          some res ∧
      (run .lenient {} .percent [⟨[(['a', '/', ':', 'i'], 0), ([':', 'j'], 1)], some ['n']⟩]).address
        ['n'] { params := merged res.hits } = .ok path ∧
      Normalizer.percent.path path = ['/', 'a', '/', 'é', '/', 'x', '%', '2', 'F'] := by
  refine address_of_resolve (b := [(⟨[.static ['a'], .dynamic ['i']]⟩, 0), (⟨[.dynamic ['j']]⟩, 1)])
    rfl rfl rfl (by decide) (by decide) ?_
  intro ts hts
  have hcaptures : (Pattern.ofSegments [.static ['a'], .dynamic ['i'], .dynamic ['j']]).captures?
      ['/', '%', '6', '1', '/', '%', 'c', '3', '%', 'a', '9', '/', 'x', '%', '2', 'f'] =
        some [['%', 'c', '3', '%', 'a', '9'], ['x', '%', '2', 'f']] := by decide +kernel
  obtain rfl := Option.some.inj (hts.symm.trans hcaptures)
  decide +kernel

end Router

end Routing
