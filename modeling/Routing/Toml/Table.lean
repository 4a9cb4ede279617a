import Routing.Text

/-! TOML documents as data: values, and tables that remember how they came to be, since that decides
where more may be added to them. -/

namespace Routing.Toml

inductive Origin where
  /-- In braces: complete as it stands. -/
  | inline
  /-- Under a header of its own. -/
  | header
  /-- As a step on the way to another header. -/
  | implied
  /-- As a step of a dotted key. -/
  | dotted
  deriving DecidableEq

inductive Node where
  | text (s : Text)
  | boolean (b : Bool)
  | integer (i : Int)
  /-- A number that is no integer, as it was written. -/
  | float (literal : Text)
  | array (items : List Node)
  | table (origin : Origin) (entries : List (Text × Node))
  /-- Tables under one repeated header. -/
  | tables (elements : List (List (Text × Node)))

abbrev Entries := List (Text × Node)

namespace Entries

def find? (es : Entries) (key : Text) : Option Node := (List.find? (·.1 == key) es).map (·.2)

def set (es : Entries) (key : Text) (v : Node) : Entries :=
  if (es.find? key).isSome then es.map fun e => if e.1 == key then (key, v) else e
  else es ++ [(key, v)]

/-- Adds a value under a dotted key. Its steps open tables of their own or go on in tables that no
header and no braces have closed; the last step has to be a table made by dotted keys. -/
def add (v : Node) : List Text → Entries → Option Entries
  | [], _ => none
  | [key], es => if (es.find? key).isSome then none else some (es ++ [(key, v)])
  | key :: path, es =>
    match es.find? key with
    | none => (add v path []).map fun sub => es.set key (.table .dotted sub)
    | some (.table .dotted sub) => (add v path sub).map fun sub => es.set key (.table .dotted sub)
    | some (.table .implied sub) =>
      if path.length = 1 then none
      else (add v path sub).map fun sub => es.set key (.table .implied sub)
    | some (.tables elements) =>
      if path.length = 1 then none
      else (add v path (elements.getLast?.getD [])).map fun sub =>
        es.set key (.tables (elements.dropLast ++ [sub]))
    | some _ => none

/-- Changes the node at the end of a header's path. Steps lead through tables of any kind but
inline ones, and through the last table of a repeated header. -/
def alter (f : Option Node → Option Node) : List Text → Entries → Option Entries
  | [], _ => none
  | [key], es => (f (es.find? key)).map (es.set key)
  | key :: path, es =>
    match es.find? key with
    | none => (alter f path []).map fun sub => es.set key (.table .implied sub)
    | some (.table .inline _) => none
    | some (.table origin sub) => (alter f path sub).map fun sub => es.set key (.table origin sub)
    | some (.tables elements) =>
      (alter f path (elements.getLast?.getD [])).map fun sub =>
        es.set key (.tables (elements.dropLast ++ [sub]))
    | some _ => none

end Entries
end Routing.Toml
