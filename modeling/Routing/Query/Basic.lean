import Routing.Dict
import Routing.Percent.Decode

/-! Query strings, read into a map from keys to values: pieces between `&`, each `key=value`,
`key[]=value` for one item of a list, or a bare `key` for a flag. -/

namespace Routing

inductive Query.Value where
  | single (text : Text)
  | multiple (texts : List Text)
  deriving DecidableEq

abbrev Query := Dict Query.Value

namespace Query

def Value.text? : Value → Option Text
  | single t => some t
  | multiple _ => none

def Value.list? : Value → Option (List Text)
  | single _ => none
  | multiple ts => some ts

def text? (q : Query) (key : Text) : Option Text := (q.find? key).bind Value.text?

/-- Form decoding: `+` is a space, and a part that is malformed or no UTF-8 counts as empty. -/
def decodeForm (s : Text) : Text :=
  let t : Text := s.flatMap fun c => if c = '+' then ['%', '2', '0'] else [c]
  if Percent.wellFormed t then (Percent.decode? t).getD [] else []

/-- The name in a key `name[]`. A bare `[]` is an ordinary key. -/
def listName? (key : Text) : Option Text :=
  match key.reverse with
  | ']' :: '[' :: c :: r => some (c :: r).reverse
  | _ => none

/-- A list with one more item. A scalar already there becomes its first item. -/
def Value.push : Option Value → Text → Value
  | none, t => multiple [t]
  | some (single s), t => multiple [s, t]
  | some (multiple ts), t => multiple (ts ++ [t])

def addItem (q : Query) (key text : Text) : Query := q.insert key (.push (q.find? key) text)

def flagValue : Text := ['t', 'r', 'u', 'e']

/-- One piece between `&`. A later scalar replaces whatever its key held before. -/
def addPiece (q : Query) (piece : Text) : Query :=
  match piece.cut '=' with
  | (flag, none) => q.insert (decodeForm flag) (.single flagValue)
  | (rawKey, some rawValue) =>
    match listName? (decodeForm rawKey) with
    | some name => q.addItem name (decodeForm rawValue)
    | none => q.insert (decodeForm rawKey) (.single (decodeForm rawValue))

def parse (s : Text) : Query :=
  ((s.splitOn '&').filter (! ·.isEmpty)).foldl addPiece Dict.empty

end Query
end Routing
