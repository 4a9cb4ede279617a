import Routing.Toml.Number

/-! TOML values: strings, truth values, numbers, and arrays and inline tables of values. -/

namespace Routing.Toml

def isWordChar (c : Char) : Bool := isBare c || c == '+' || c == '.'

def word? (s : Text) : Option Node :=
  if s = ['t', 'r', 'u', 'e'] then some (.boolean true)
  else if s = ['f', 'a', 'l', 's', 'e'] then some (.boolean false)
  else number? s

def scalarValue? : Reader Node
  | '"' :: s => (basicString? .plain s).map (.map .text id)
  | '\x27' :: s => (literalString? s).map (.map .text id)
  | s => (word? (s.takeWhile isWordChar)).map fun v => (v, s.dropWhile isWordChar)

/-- At most this many items of an array, up to its bracket. A comma may follow the last one. -/
def items? (value : Reader Node) : Nat → Reader (List Node)
  | 0, _ => none
  | n + 1, s =>
    match skipLines s with
    | ']' :: s => some ([], s)
    | s => do
      let (v, s) ← value s
      match skipLines s with
      | ']' :: s => some ([v], s)
      | ',' :: s => (items? value n s).map (.map (v :: ·) id)
      | _ => none

/-- At most this many entries of an inline table, at least one, up to its brace. -/
def fields? (value : Reader Node) : Nat → Reader (List (List Text × Node))
  | 0, _ => none
  | n + 1, s => do
    let (key, s) ← key? s
    match s with
    | '=' :: s =>
      let (v, s) ← value (skipBlanks s)
      match skipBlanks s with
      | '\x7d' :: s => some ([(key, v)], s)
      | ',' :: s => (fields? value n s).map (.map ((key, v) :: ·) id)
      | _ => none
    | _ => none

def inlineTable? (fields : List (List Text × Node)) : Option Node :=
  (fields.foldlM (fun es f => Entries.add f.2 f.1 es) []).map (.table .inline)

/-- A value with at most this many levels of arrays and inline tables. -/
def value? : Nat → Reader Node
  | 0, s => scalarValue? s
  | depth + 1, s =>
    match s with
    | '[' :: s => (items? (value? depth) (s.length + 1) s).map (.map .array id)
    | '\x7b' :: s =>
      match skipBlanks s with
      | '\x7d' :: s => some (.table .inline [], s)
      | _ => do
        let (fields, s) ← fields? (value? depth) (s.length + 1) s
        let table ← inlineTable? fields
        return (table, s)
    | s => scalarValue? s

end Routing.Toml
