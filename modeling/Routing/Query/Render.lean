import Routing.Query.Basic
import Routing.Sort

/-! The canonical query string of a list of entries: keys in ascending order, absent values left
out, lists as repeated `key[]=value` pieces, and all of it percent-encoded. -/

namespace Routing.Query

def Value.pieces (key : Text) : Value → List Text
  | single v => [Percent.encodeComponent key ++ '=' :: Percent.encodeComponent v]
  | multiple vs =>
    vs.map fun v => Percent.encodeComponent key ++ '[' :: ']' :: '=' :: Percent.encodeComponent v

/-- Entries by ascending key. Entries of one key keep their order. -/
def sortEntries (entries : List (Text × Option Value)) : List (Text × Option Value) :=
  sortStable (fun a b => ! decide (b.1 < a.1)) entries

/-- Pieces joined by `&` behind a `?`, or nothing at all without a piece. -/
def joinPieces : List Text → Text
  | [] => []
  | pieces => '?' :: ['&'].intercalate pieces

def write (entries : List (Text × Option Value)) : Text :=
  joinPieces ((sortEntries entries).flatMap fun (key, v) => v.elim [] (Value.pieces key))

def render (q : Query) : Text := write (q.entries.map fun (key, v) => (key, some v))

end Routing.Query
