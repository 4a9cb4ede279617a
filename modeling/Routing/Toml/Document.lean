import Routing.Toml.Value

/-! TOML documents: lines with headers and entries, put together to one table. -/

namespace Routing.Toml

inductive Header where
  | table (path : List Text)
  /-- A header in double brackets, which adds one table to a list of tables. -/
  | element (path : List Text)

inductive Line where
  | entry (path : List Text) (v : Node)
  | header (h : Header)

structure Part where
  header : Header
  entries : List (List Text × Node)

def entryLine? : Reader Line := fun s => do
  let (path, s) ← key? s
  match s with
  | '=' :: s =>
    let (v, s) ← value? maxDepth (skipBlanks s)
    let s ← lineEnd? s
    return (.entry path v, s)
  | _ => none

def headerLine? : Reader Line
  | '[' :: '[' :: s => do
    match ← key? s with
    | (path, ']' :: ']' :: s) => return (.header (.element path), ← lineEnd? s)
    | _ => none
  | '[' :: s => do
    match ← key? s with
    | (path, ']' :: s) => return (.header (.table path), ← lineEnd? s)
    | _ => none
  | _ => none

/-- The lines of a text that has at most this many, blank and comment lines left out. -/
def lines? : Nat → Text → Option (List Line)
  | 0, _ => none
  | n + 1, s =>
    match skipBlanks s with
    | [] => some []
    | c :: s =>
      if c == '#' || c == '\n' || c == '\r' then (lineEnd? (c :: s)).bind (lines? n)
      else do
        let (line, s) ← if c == '[' then headerLine? (c :: s) else entryLine? (c :: s)
        (lines? n s).map (line :: ·)

def parts : List Line → List (List Text × Node) × List Part
  | [] => ([], [])
  | .entry path v :: ls => (parts ls).map ((path, v) :: ·) id
  | .header h :: ls =>
    let (entries, rest) := parts ls
    ([], ⟨h, entries⟩ :: rest)

def addAll (es : Entries) (fields : List (List Text × Node)) : Option Entries :=
  fields.foldlM (fun es f => es.add f.2 f.1) es

/-- A header opens a new table, or one that so far was only implied. A header in double brackets
adds to a list of tables that such headers alone have made. -/
def addPart (es : Entries) (p : Part) : Option Entries :=
  match p.header with
  | .table path =>
    es.alter (fun
      | none => (addAll [] p.entries).map (.table .header)
      | some (.table .implied old) => (addAll old p.entries).map (.table .header)
      | some _ => none) path
  | .element path =>
    es.alter (fun
      | none => (addAll [] p.entries).map fun new => .tables [new]
      | some (.tables old) => (addAll [] p.entries).map fun new => .tables (old ++ [new])
      | some _ => none) path

/-- The table of a text. A byte order mark in front of it is dropped. -/
def document? (s : Text) : Option Entries := do
  let lines ← lines? (s.length + 1) (s.dropLeading '\ufeff')
  let (top, rest) := parts lines
  rest.foldlM addPart (← addAll [] top)

end Routing.Toml
