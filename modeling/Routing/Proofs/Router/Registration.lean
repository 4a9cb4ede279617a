import Mathlib.Tactic.Common
import Routing.Router.Resolve

/-! What a registration does. The batch is compiled first and the router is written to only after that,
so a refusal leaves the router as it was, and a run is determined by the batches that were accepted. -/

namespace Routing

variable {H : Type}

namespace Batch

variable {k : Compiler} {n : Normalizer} {routes : List (Text × H)} {cause : Text}

theorem check_of_compile (h0 : routes ≠ []) (hk : k.compile (parse n routes).pattern.source = .ok ()) :
    (parse n routes).check k = .ok true := by
  rw [check, if_neg (by simpa [parse] using h0), hk]

theorem check_of_refused (h0 : routes ≠ [])
    (hk : k.compile (parse n routes).pattern.source = .error cause) :
    (parse n routes).check k = .error (.invalidPattern (parse n routes).pattern.source cause) := by
  rw [check, if_neg (by simpa [parse] using h0), hk]

theorem check_eq_true_iff : (parse n routes).check k = .ok true ↔
    routes ≠ [] ∧ k.compile (parse n routes).pattern.source = .ok () := by
  by_cases h0 : routes = []
  · subst h0
    exact iff_of_false (fun h => nomatch h) fun h => h.1 rfl
  · cases hk : k.compile (parse n routes).pattern.source with
    | ok u => exact iff_of_true (check_of_compile h0 hk) ⟨h0, rfl⟩
    | error cause => simp [check_of_refused h0 hk]

end Batch

/-- What one registration asks for. -/
structure Registration (H : Type) where
  routes : List (Text × H)
  name : Option Text

/-- A batch that has been registered, with its name if it has one. -/
structure Accepted (H : Type) where
  batch : Batch H
  name : Option Text

/-- What a registration leaves: its batch, unless that is empty or refused. -/
def Registration.accepted? (k : Compiler) (n : Normalizer) (x : Registration H) :
    Option (Accepted H) :=
  match (Batch.parse n x.routes).check k with
  | .ok true => some ⟨Batch.parse n x.routes, x.name⟩
  | _ => none

theorem Registration.accepted?_eq_some_iff {k : Compiler} {n : Normalizer} {x : Registration H}
    {a : Accepted H} : x.accepted? k n = some a ↔
      (Batch.parse n x.routes).check k = .ok true ∧ ⟨Batch.parse n x.routes, x.name⟩ = a := by
  rw [accepted?]
  rcases (Batch.parse n x.routes).check k with e | _ | _ <;> simp

def accepted (k : Compiler) (n : Normalizer) (xs : List (Registration H)) : List (Accepted H) :=
  xs.filterMap (Registration.accepted? k n)

/-- What is accepted has routes, and the notation of their pattern is not refused. -/
theorem mem_accepted {k : Compiler} {n : Normalizer} {xs : List (Registration H)} {a : Accepted H} :
    a ∈ accepted k n xs ↔ ∃ x ∈ xs, x.routes ≠ [] ∧
      k.compile (Batch.parse n x.routes).pattern.source = .ok () ∧
      ⟨Batch.parse n x.routes, x.name⟩ = a := by
  simp [accepted, Registration.accepted?_eq_some_iff, Batch.check_eq_true_iff, and_assoc]

namespace Router

/-- What an accepted batch adds. -/
def enter (r : Router H) (a : Accepted H) : Router H :=
  { r with
    graph := r.graph.insert a.batch.word a.batch.entry
    named := match a.name with
      | some name => r.named.insert name a.batch.namedRoute
      | none => r.named }

/-- The router is written to only where there is a batch that was not refused. -/
theorem add_eq (r : Router H) (k : Compiler) (routes : List (Text × H)) (name : Option Text) :
    r.add k routes name = match (Batch.parse r.normalizer routes).check k with
      | .ok true => .ok () (r.enter ⟨Batch.parse r.normalizer routes, name⟩)
      | .ok false => .ok () r
      | .error e => .error e r := by
  rw [add, addRoutes, EStateM.run_bind, EStateM.run_get]
  dsimp only
  rw [EStateM.run_bind]
  rcases (Batch.parse r.normalizer routes).check k with e | _ | _
  · rfl
  · rfl
  · cases name <;> rfl

theorem add_nil (r : Router H) (k : Compiler) (name : Option Text) : r.add k [] name = .ok () r :=
  add_eq r k [] name

section

variable {k : Compiler} {r r' : Router H} {routes : List (Text × H)} {name : Option Text}
  {e : RouteError} {cause : Text}

theorem add_of_compile (h0 : routes ≠ [])
    (hk : k.compile (Batch.parse r.normalizer routes).pattern.source = .ok ()) :
    r.add k routes name = .ok () (r.enter ⟨Batch.parse r.normalizer routes, name⟩) := by
  rw [add_eq, Batch.check_of_compile h0 hk]

theorem add_of_refused (h0 : routes ≠ [])
    (hk : k.compile (Batch.parse r.normalizer routes).pattern.source = .error cause) :
    r.add k routes name =
      .error (.invalidPattern (Batch.parse r.normalizer routes).pattern.source cause) r := by
  rw [add_eq, Batch.check_of_refused h0 hk]

/-- What a registration can do where it does not fail. -/
theorem add_cases (h : r.add k routes name = .ok () r') :
    routes = [] ∧ r' = r ∨ routes ≠ [] ∧
      k.compile (Batch.parse r.normalizer routes).pattern.source = .ok () ∧
      r' = r.enter ⟨Batch.parse r.normalizer routes, name⟩ := by
  by_cases h0 : routes = []
  · subst h0
    rw [add_nil] at h
    cases h
    exact .inl ⟨rfl, rfl⟩
  · cases hk : k.compile (Batch.parse r.normalizer routes).pattern.source with
    | error cause => exact nomatch (add_of_refused h0 hk).symm.trans h
    | ok u =>
      rw [add_of_compile h0 hk] at h
      cases h
      exact .inr ⟨h0, rfl, rfl⟩

/-- A registration fails for the pattern of its batch only, and leaves the router as it was. -/
theorem of_add_error (h : r.add k routes name = .error e r') : routes ≠ [] ∧ r' = r ∧
    ∃ cause, k.compile (Batch.parse r.normalizer routes).pattern.source = .error cause ∧
      e = .invalidPattern (Batch.parse r.normalizer routes).pattern.source cause := by
  by_cases h0 : routes = []
  · subst h0
    exact nomatch (add_nil r k name).symm.trans h
  · cases hk : k.compile (Batch.parse r.normalizer routes).pattern.source with
    | ok u => exact nomatch (add_of_compile h0 hk).symm.trans h
    | error cause =>
      rw [add_of_refused h0 hk] at h
      cases h
      exact ⟨h0, rfl, cause, rfl, rfl⟩

end

/-- The router after a registration, whatever the outcome. -/
def register (k : Compiler) (r : Router H) (x : Registration H) : Router H :=
  match r.add k x.routes x.name with
  | .ok _ r' => r'
  | .error _ r' => r'

def run (k : Compiler) (c : Config) (n : Normalizer) (xs : List (Registration H)) : Router H :=
  xs.foldl (register k) (new c n)

section

variable (k : Compiler) (c : Config) (n : Normalizer) (xs : List (Registration H))

theorem register_eq (r : Router H) (x : Registration H) :
    register k r x = ((x.accepted? k r.normalizer).map r.enter).getD r := by
  rw [register, add_eq, Registration.accepted?]
  rcases (Batch.parse r.normalizer x.routes).check k with e | _ | _ <;> rfl

theorem normalizer_register (r : Router H) (x : Registration H) :
    (register k r x).normalizer = r.normalizer := by
  rw [register_eq]
  cases x.accepted? k r.normalizer <;> rfl

theorem foldl_register (r : Router H) :
    xs.foldl (register k) r = (accepted k r.normalizer xs).foldl enter r := by
  induction xs generalizing r with
  | nil => rfl
  | cons x xs ih =>
    rw [List.foldl_cons, ih, normalizer_register, accepted, accepted, List.filterMap_cons, register_eq]
    cases x.accepted? k r.normalizer <;> rfl

/-- A run is determined by its accepted batches. -/
theorem run_eq : run k c n xs = (accepted k n xs).foldl enter (new c n) :=
  foldl_register k xs (new c n)

theorem run_append_singleton (x : Registration H) :
    run k c n (xs ++ [x]) = register k (run k c n xs) x :=
  List.foldl_append ..

end

section

variable {k : Compiler} {c : Config} {n : Normalizer} {xs : List (Registration H)} {r : Router H}
  {routes : List (Text × H)} {name : Option Text}

theorem eq_run_of_add (h : (run k c n xs).add k routes name = .ok () r) :
    r = run k c n (xs ++ [⟨routes, name⟩]) := by
  rw [run_append_singleton, register, h]

theorem eq_run_singleton (h : (new c n).add k routes name = .ok () r) :
    r = run k c n [⟨routes, name⟩] :=
  @eq_run_of_add H k c n [] r routes name h

theorem add_eq_run (h0 : routes ≠ [])
    (hk : k.compile (Batch.parse n routes).pattern.source = .ok ()) :
    (new c n).add k routes name = .ok () (run k c n [⟨routes, name⟩]) := by
  have h : (new c n).add k routes name = .ok () ((new c n).enter ⟨Batch.parse n routes, name⟩) :=
    add_of_compile h0 hk
  rw [← eq_run_singleton h, h]

theorem accepted_singleton (name : Option Text) (h0 : routes ≠ [])
    (hk : k.compile (Batch.parse n routes).pattern.source = .ok ()) :
    accepted k n [⟨routes, name⟩] = [⟨Batch.parse n routes, name⟩] := by
  simp [accepted, Registration.accepted?, Batch.check_of_compile h0 hk]

theorem accepted_of_add (h0 : routes ≠ []) (h : (new c n).add k routes name = .ok () r) :
    accepted k n [⟨routes, name⟩] = [⟨Batch.parse n routes, name⟩] :=
  accepted_singleton name h0 ((add_cases h).resolve_left fun hn => h0 hn.1).2.1

end

end Router
end Routing
