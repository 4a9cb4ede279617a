import Routing.Text

/-! A graph of states for sets of words over character classes. Each state is entered through one
class, words with a common beginning share states, and a class that may repeat is one state that
lists itself among its children. -/

namespace Routing

inductive CharClass where
  /-- Only the listed characters. -/
  | allow (chars : List Char)
  /-- Any character but the listed ones, any number of times. -/
  | deny (chars : List Char)
  deriving DecidableEq

namespace CharClass

def exactly (c : Char) : CharClass := .allow [c]

def admits : CharClass → Char → Bool
  | allow cs, c => cs.contains c
  | deny cs, c => ! cs.contains c

/-- Whether one occurrence of the class in a word stands for one or more characters. -/
def repeats : CharClass → Bool
  | allow _ => false
  | deny _ => true

end CharClass

/-- A state, with what is stored at the end of a word if it is one. -/
structure Graph.State (α : Type) where
  cls : CharClass
  next : List Nat
  entry : Option α

/-- States refer to each other by their position. -/
structure Graph (α : Type) where
  states : Array (Graph.State α)

namespace Graph

variable {α : Type}

def root : Nat := 0

def empty : Graph α := ⟨#[⟨.allow [], [], none⟩]⟩

def size (g : Graph α) : Nat := g.states.size

def children (g : Graph α) (i : Nat) : List Nat := (g.states[i]?.map State.next).getD []

def cls? (g : Graph α) (i : Nat) : Option CharClass := g.states[i]?.map State.cls

def stored? (g : Graph α) (i : Nat) : Option α := g.states[i]?.bind State.entry

def child? (g : Graph α) (i : Nat) (k : CharClass) : Option Nat :=
  (g.children i).find? fun j => g.cls? j == some k

/-- Appends a child to a state. A repeating child comes first among its own children. -/
def grow (g : Graph α) (i : Nat) (k : CharClass) : Graph α :=
  let j := g.size
  ⟨(g.states.modify i fun s => { s with next := s.next ++ [j] }).push
    ⟨k, if k.repeats then [j] else [], none⟩⟩

def ensure (g : Graph α) (i : Nat) (k : CharClass) : Graph α × Nat :=
  match g.child? i k with
  | some j => (g, j)
  | none => (g.grow i k, g.size)

def ensureWord (g : Graph α) (word : List CharClass) : Graph α × Nat :=
  word.foldl (fun (g, i) k => g.ensure i k) (g, root)

/-- Stores an entry at the end of a word, in the place of an older one. -/
def insert (g : Graph α) (word : List CharClass) (a : α) : Graph α :=
  let (g, i) := g.ensureWord word
  ⟨g.states.modify i fun s => { s with entry := some a }⟩

def admits (g : Graph α) (i : Nat) (c : Char) : Bool := (g.cls? i).any (·.admits c)

/-- The states that one character leads to, each once, in the order they are reached. -/
def step (g : Graph α) (frontier : List Nat) (c : Char) : List Nat :=
  (frontier.flatMap fun i => (g.children i).filter (g.admits · c)).eraseDups

/-- The states that a text leads to from the root. -/
def reach (g : Graph α) (s : Text) : List Nat := s.foldl g.step [root]

def entries (g : Graph α) (s : Text) : List α := (g.reach s).filterMap g.stored?

theorem mem_step {g : Graph α} {frontier : List Nat} {c : Char} {j : Nat} :
    j ∈ g.step frontier c ↔ ∃ i ∈ frontier, j ∈ g.children i ∧ g.admits j c := by
  simp [step]

theorem reach_append (g : Graph α) (s t : Text) : g.reach (s ++ t) = t.foldl g.step (g.reach s) :=
  List.foldl_append ..

theorem reach_append_singleton (g : Graph α) (s : Text) (c : Char) :
    g.reach (s ++ [c]) = g.step (g.reach s) c := reach_append g s [c]

@[simp] theorem size_grow (g : Graph α) (i : Nat) (k : CharClass) :
    (g.grow i k).size = g.size + 1 := by
  simp [grow, size]

theorem getElem?_grow (g : Graph α) (i : Nat) (k : CharClass) (j : Nat) :
    (g.grow i k).states[j]? =
      if j = g.size then some ⟨k, if k.repeats then [g.size] else [], none⟩
      else (g.states[j]?).map fun s =>
        if i = j then { s with next := s.next ++ [g.size] } else s := by
  rw [grow, Array.getElem?_push, Array.size_modify, ← size]
  split
  · rfl
  · rw [Array.getElem?_modify]
    by_cases h : i = j <;> simp [h]

theorem cls?_grow (g : Graph α) (i : Nat) (k : CharClass) (j : Nat) :
    (g.grow i k).cls? j = if j = g.size then some k else g.cls? j := by
  rw [cls?, cls?, getElem?_grow]
  split
  · rfl
  · cases g.states[j]? with
    | none => rfl
    | some s => by_cases h : i = j <;> simp [h]

theorem children_grow (g : Graph α) {i : Nat} (hi : i < g.size) (k : CharClass) (j : Nat) :
    (g.grow i k).children j =
      if j = g.size then (if k.repeats then [g.size] else [])
      else if j = i then g.children i ++ [g.size] else g.children j := by
  rw [children, getElem?_grow]
  split
  · rfl
  · next hj =>
    by_cases h : i = j
    · subst h
      simp [children, Array.getElem?_eq_getElem (show i < g.states.size from hi)]
    · simp only [h, if_false, Ne.symm h, children]
      cases g.states[j]? <;> rfl

theorem stored?_grow (g : Graph α) (i : Nat) (k : CharClass) (j : Nat) :
    (g.grow i k).stored? j = g.stored? j := by
  rw [stored?, stored?, getElem?_grow]
  split
  · next h => simp [h, size]
  · cases g.states[j]? with
    | none => rfl
    | some s => by_cases h : i = j <;> simp [h]

end Graph
end Routing
