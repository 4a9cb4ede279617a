import Routing.Proofs.Batch.Lifting
import Routing.Proofs.Router.Acceptance

/-! The two forms of a path. What is walked is the normal form of what captures are read from, and a
closing slash is dropped from both or from neither. -/

namespace Routing

variable {H : Type}

/-- A slash closes the text and is not all of it. -/
def Closed (s : Text) : Prop := ∃ a, a ≠ [] ∧ s = a ++ ['/']

def dropClosing (s : Text) : Text := if 1 < s.length then s.dropTrailing '/' else s

theorem closing_slash_iff {s : Text} :
    (1 < s.length && s.endsWith '/') = true ↔ Closed s := by
  rw [Bool.and_eq_true, decide_eq_true_iff, Text.endsWith, beq_iff_eq, List.getLast?_eq_some_iff]
  refine ⟨?_, ?_⟩
  · intro hx
    obtain ⟨hl, a, rfl⟩ := hx
    refine ⟨a, ?_, rfl⟩
    rintro rfl
    exact absurd hl (by decide)
  · intro hx
    obtain ⟨a, ha, rfl⟩ := hx
    have := List.length_pos_iff.2 ha
    exact ⟨by simpa using this, a, rfl⟩

theorem dropClosing_append_singleton {a : Text} (h : a ≠ []) : dropClosing (a ++ ['/']) = a := by
  have := List.length_pos_iff.2 h
  rw [dropClosing, if_pos (by simpa using this), Text.dropTrailing_append_singleton]

theorem dropClosing_of_not {s : Text} (h : ¬ Closed s) : dropClosing s = s := by
  unfold dropClosing Text.dropTrailing
  split_ifs with hl hs
  · exact absurd (closing_slash_iff.1 (by simp [Text.endsWith, hl, hs])) h
  · rfl
  · rfl

theorem rooted_eq (p : Text) : rooted p = '/' :: p.dropLeading '/' := by
  cases p with
  | nil => rfl
  | cons c p => by_cases hc : c = '/' <;> simp [rooted, Text.dropLeading, hc]

theorem splitAddress_of_not_mem {p : Text} (hp : '?' ∉ p ∧ '#' ∉ p) : splitAddress p = (p, none) := by
  rw [splitAddress, Text.cut_of_not_mem hp.2, Text.cut_of_not_mem hp.1]

/-- The form of an address in which it is looked up. -/
def workingPath (c : Config) (n : Normalizer) (address : Text) : Text :=
  let path := rooted (splitAddress address).1
  dropClosing (if c.encodeSegments then n.path path else Percent.decodeUri path)

namespace PathForms

theorem walked_trim (w p : Text) : (trim w p).walked = dropClosing w := by
  unfold trim dropClosing Text.dropTrailing
  by_cases hl : 1 < w.length
  · by_cases hs : w.getLast? = some '/' <;> simp [Text.endsWith, hl, hs]
  · simp [hl]

theorem slashDropped_trim (w p : Text) :
    (trim w p).slashDropped = (decide (1 < w.length) && w.endsWith '/') := by
  unfold trim
  split_ifs with h <;> simp [h]

def ofPath (n : Normalizer) (p : Text) : PathForms := trim (n.path p) p

variable {n : Normalizer}

/-- What is walked is the normal form of what captures are read from. -/
theorem walked_ofPath (h : n.Faithful) (p : Text) :
    (ofPath n p).walked = n.path (ofPath n p).read ∧
      p = (ofPath n p).read ++ if (ofPath n p).slashDropped then ['/'] else [] := by
  unfold ofPath trim
  by_cases hd : 1 < (n.path p).length && (n.path p).endsWith '/'
  · rw [if_pos hd]
    rw [Bool.and_eq_true, Text.endsWith, beq_iff_eq] at hd
    obtain ⟨u, hu⟩ := List.getLast?_eq_some_iff.1 hd.2
    obtain ⟨a, b, rfl, ha, hb⟩ := h.exists_of_path_eq_append hu
    obtain rfl := h.path_eq_nil.1 hb
    rw [Text.dropTrailing_append_singleton, hu, List.dropLast_concat]
    exact ⟨ha.symm, rfl⟩
  · rw [if_neg hd]
    exact ⟨rfl, by simp⟩

theorem slashDropped_ofPath (h : n.Faithful) {p : Text} :
    (ofPath n p).slashDropped = true ↔ Closed p := by
  rw [ofPath, slashDropped_trim, closing_slash_iff]
  refine ⟨?_, ?_⟩
  · intro hx
    obtain ⟨u, hu0, hu⟩ := hx
    obtain ⟨a, b, rfl, rfl, hb⟩ := h.exists_of_path_eq_append hu
    obtain rfl := h.path_eq_nil.1 hb
    exact ⟨a, fun ha => hu0 (h.path_eq_nil.2 ha), rfl⟩
  · intro hx
    obtain ⟨a, ha, rfl⟩ := hx
    exact ⟨n.path a, fun h0 => ha (h.path_eq_nil.1 h0), by rw [h.path_append, h.path_nil]⟩

end PathForms

/-- A closing slash is dropped before or after normalization. -/
theorem Normalizer.Faithful.path_dropClosing {n : Normalizer} (h : n.Faithful) (p : Text) :
    n.path (dropClosing p) = dropClosing (n.path p) := by
  by_cases hp : Closed p
  · obtain ⟨a, ha, rfl⟩ := hp
    rw [h.path_append, h.path_nil, dropClosing_append_singleton ha,
      dropClosing_append_singleton fun hx => ha (h.path_eq_nil.1 hx)]
  · have hw : ¬ Closed (n.path p) := by
      rwa [← closing_slash_iff, ← PathForms.slashDropped_trim _ p, ← PathForms.ofPath,
        PathForms.slashDropped_ofPath h]
    rw [dropClosing_of_not hp, dropClosing_of_not hw]

theorem Segment.normal_parse (n : Normalizer) {p : Text} (hp : '/' ∉ p) :
    (Segment.parse n p).Normal n := by
  fun_cases Segment.parse n p with
  | case1 => trivial
  | case2 => trivial
  | case3 => trivial
  | case4 p h0 => exact ⟨p, hp, h0, rfl⟩

theorem Batch.mem_segments_parse {n : Normalizer} {routes : List (Text × H)} {s : Segment}
    (h : s ∈ (Batch.parse n routes).segments) :
    ∃ r ∈ routes, ∃ p ∈ (r.1.dropLeading '/').splitOn '/', Segment.parse n p = s := by
  obtain ⟨_, hr, hs⟩ := List.mem_flatMap.1 h
  obtain ⟨route, hroute, rfl⟩ := List.mem_map.1 hr
  exact ⟨route, hroute, List.mem_map.1 hs⟩

theorem Batch.normal_parse (n : Normalizer) (routes : List (Text × H)) :
    ∀ s ∈ (Batch.parse n routes).segments, s.Normal n := by
  intro s hs
  obtain ⟨_, _, p, hp, rfl⟩ := mem_segments_parse hs
  exact Segment.normal_parse n (not_mem_of_mem_splitOn hp)

theorem normal_of_mem_accepted {k : Compiler} {n : Normalizer} {xs : List (Registration H)}
    {a : Accepted H} (h : a ∈ accepted k n xs) : ∀ s ∈ a.batch.segments, s.Normal n := by
  obtain ⟨x, -, -, -, rfl⟩ := mem_accepted.1 h
  exact Batch.normal_parse n x.routes

theorem normal_of_mem_inForce {k : Compiler} {n : Normalizer} {xs : List (Registration H)} {b : Batch H}
    (h : b ∈ inForce k n xs) : ∀ s ∈ b.segments, s.Normal n := by
  obtain ⟨a, ha, rfl⟩ := List.mem_map.1 (mem_of_mem_standing h)
  exact normal_of_mem_accepted ha

/-- The text that captures are read from. -/
def Entry.textOf (e : Entry H) (p : PathForms) : Text :=
  if p.slashDropped && e.pattern.closesWithStar then p.read ++ ['/'] else p.read

theorem Entry.hits?_eq (e : Entry H) (decode : Bool) (p : PathForms) :
    e.hits? decode p = (e.pattern.captures? (e.textOf p)).map (Endpoint.deal decode e.endpoints) :=
  rfl

/-- Captures are read from the whole path where a star closes it, and else from the path without
its closing slash. -/
theorem Entry.textOf_ofPath {n : Normalizer} (h : n.Faithful) (e : Entry H) (p : Text) :
    e.textOf (.ofPath n p) = if e.pattern.closesWithStar then p else dropClosing p := by
  have hp := (PathForms.walked_ofPath h p).2
  unfold textOf
  cases hd : (PathForms.ofPath n p).slashDropped with
  | false =>
    have hn : ¬ Closed p := by simp [← PathForms.slashDropped_ofPath h, hd]
    rw [hd, if_neg (by simp), List.append_nil] at hp
    rw [dropClosing_of_not hn, ite_self, Bool.false_and, if_neg (by simp), ← hp]
  | true =>
    obtain ⟨a, ha, rfl⟩ := (PathForms.slashDropped_ofPath h).1 hd
    rw [hd, if_pos rfl] at hp
    rw [Bool.true_and, dropClosing_append_singleton ha, ← List.append_cancel_right hp]

namespace Router

variable {k : Compiler} {c : Config} {n : Normalizer} {xs : List (Registration H)}

theorem foldl_enter (r : Router H) (as : List (Accepted H)) :
    (as.foldl enter r).config = r.config ∧ (as.foldl enter r).normalizer = r.normalizer := by
  induction as generalizing r with
  | nil => exact ⟨rfl, rfl⟩
  | cons a as ih => exact ih (r.enter a)

theorem config_run : (run k c n xs).config = c := by
  rw [run_eq]
  exact (foldl_enter _ _).1

theorem normalizer_run : (run k c n xs).normalizer = n := by
  rw [run_eq]
  exact (foldl_enter _ _).2

def formsOf (c : Config) (n : Normalizer) (address : Text) : PathForms :=
  let p := rooted (splitAddress address).1
  if c.encodeSegments then .ofPath n p else .ofPath .identity (Percent.decodeUri p)

theorem pathForms_run (address : Text) :
    (run k c n xs).pathForms (rooted (splitAddress address).1) = formsOf c n address := by
  rw [pathForms, config_run, normalizer_run]
  rfl

theorem walked_formsOf (address : Text) :
    (formsOf c n address).walked = workingPath c n address := by
  unfold formsOf workingPath
  split_ifs <;> exact PathForms.walked_trim _ _

/-- Resolution looks the working path up and reads captures from the other form. -/
theorem resolve_run (address : Text) : (run k c n xs).resolve address =
    ((run k c n xs).select (workingPath c n address)).bind fun e =>
      (e.hits? c.encodeSegments (formsOf c n address)).map fun hits =>
        ⟨hits, ((splitAddress address).2.map Query.parse).getD Dict.empty⟩ := by
  rw [← walked_formsOf]
  unfold resolve resolvePath
  simp only [pathForms_run, config_run]
  rw [Option.map_bind]
  rfl

/-- The hits come from pieces that the pattern of the batch that wins reads. -/
theorem exists_pieces {address : Text} {res : Resolution H} {b : Batch H}
    (hs : (run k c n xs).select (workingPath c n address) = some b.entry)
    (h : (run k c n xs).resolve address = some res) :
    ∃ ps, List.Forall₂ Segment.Reads (Segment.visible b.segments) ps ∧
      b.entry.textOf (formsOf c n address) = pathOf ps ∧
      b.entry.pattern.captures? (pathOf ps) =
        some (Segment.captures (Segment.visible b.segments) ps) ∧
      res.hits = Endpoint.deal c.encodeSegments b.endpoints
        (Segment.captures (Segment.visible b.segments) ps) := by
  rw [resolve_run, hs, Option.bind_some, Entry.hits?_eq, Option.map_map, Option.map_eq_some_iff] at h
  obtain ⟨ts, hts, rfl⟩ := h
  obtain ⟨ps, hps, htext, rfl⟩ := Segment.reads_ofSegments.1 (Pattern.reads_of_captures? hts)
  exact ⟨ps, hps, htext, htext ▸ hts, rfl⟩

theorem exists_batch_of_resolve {address : Text} {res : Resolution H}
    (h : (run k c n xs).resolve address = some res) :
    ∃ b ∈ candidates k n xs (workingPath c n address),
      (run k c n xs).select (workingPath c n address) = some b.entry := by
  rw [resolve_run, Option.bind_eq_some_iff] at h
  obtain ⟨e, he, -⟩ := h
  obtain ⟨⟨b, hb, rfl⟩, -⟩ := of_select k c n xs _ he
  exact ⟨b, hb, he⟩

end Router
end Routing
