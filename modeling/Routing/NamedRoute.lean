import Routing.Batch
import Routing.Error
import Routing.Query.Render

/-! Named routes: what is kept of a batch to write its path from values. -/

namespace Routing

structure NamedRoute (H : Type) where
  /-- The segments of all routes of the batch, epsilons included. -/
  segments : List Segment
  endpoints : List (Endpoint H)

/-- Values for the parameters and for the query of a path. A query value may be absent. -/
structure Values where
  params : Dict Text := Dict.empty
  query : Dict (Option Query.Value) := Dict.empty

namespace Values

def withParam (v : Values) (name value : Text) : Values :=
  { v with params := v.params.insert name value }

def withQuery (v : Values) (key : Text) (value : Option Query.Value) : Values :=
  { v with query := v.query.insert key value }

def withQueries (v : Values) (q : Query) : Values :=
  q.entries.foldl (fun v e => v.withQuery e.1 (some e.2)) v

end Values

def Batch.namedRoute {H : Type} (b : Batch H) : NamedRoute H := ⟨b.segments, b.endpoints⟩

namespace NamedRoute

variable {H : Type}

def writeSegment (name : Text) (encode : Bool) (values : Dict Text) (s : Segment) :
    Except RouteError Text :=
  match s.render encode values with
  | some t => .ok ('/' :: t)
  | none => .error (.missingParameter name ((s.param?.map Param.name).getD []))

/-- The path of a route, or the first of its parameters that has no value. -/
def path (r : NamedRoute H) (name : Text) (encode : Bool) (values : Dict Text) :
    Except RouteError Text := do
  let pieces ← (Segment.visible r.segments).mapM (writeSegment name encode values)
  return if pieces.isEmpty then ['/'] else pieces.flatten

end NamedRoute
end Routing
