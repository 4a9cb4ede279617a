import Routing.Query.Basic

/-! Queries as structured data: a record whose fields are texts or lists of texts. -/

namespace Routing

/-- Structured data of any kind, of which a query uses texts, lists and records. -/
inductive Data where
  | text (s : Text)
  | list (items : List Data)
  | record (fields : List (Text × Data))
  /-- Numbers, truth values and nothing. -/
  | other
  deriving Inhabited

def Data.text? : Data → Option Text
  | text s => some s
  | _ => none

namespace Query

def Value.toData : Value → Data
  | single t => .text t
  | multiple ts => .list (ts.map .text)

def Value.ofData? : Data → Option Value
  | .text t => some (single t)
  | .list items => (items.mapM Data.text?).map multiple
  | _ => none

def toData (q : Query) : Data := .record (q.entries.map fun (key, v) => (key, v.toData))

/-- A later field replaces an earlier one of the same key. -/
def ofData? : Data → Option Query
  | .record fields =>
    (fields.mapM fun e => (Value.ofData? e.2).map (Prod.mk e.1)).map Dict.ofList
  | _ => none

end Query
end Routing
