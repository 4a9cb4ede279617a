import Routing.Config
import Routing.NamedRoute

/-! Routers: a graph of all registered batches and a table of the named ones. -/

namespace Routing

structure Router (H : Type) where
  graph : Graph (Entry H)
  named : Dict (NamedRoute H)
  config : Config
  normalizer : Normalizer

namespace Router

variable {H : Type}

def new (config : Config) (n : Normalizer) : Router H := ⟨Graph.empty, Dict.empty, config, n⟩

def stateCount (r : Router H) : Nat := r.graph.size

def store (b : Batch H) (r : Router H) : Router H :=
  { r with graph := r.graph.insert b.word b.entry }

def publish (name : Text) (b : Batch H) (r : Router H) : Router H :=
  { r with named := r.named.insert name b.namedRoute }

/-- Registers routes that continue one another, and under a name if there is one. The pattern is
compiled before anything is written. -/
def addRoutes (k : Compiler) (routes : List (Text × H)) (name : Option Text) :
    EStateM RouteError (Router H) Unit := do
  let b := Batch.parse (← get).normalizer routes
  if ← ofExcept (b.check k) then
    modify (store b)
    if let some name := name then
      modify (publish name b)

/-- The outcome of a registration, with the router that it leaves in either case. -/
def add (r : Router H) (k : Compiler) (routes : List (Text × H)) (name : Option Text) :
    EStateM.Result RouteError (Router H) Unit :=
  (addRoutes k routes name).run r

def hasName (r : Router H) (name : Text) : Bool := r.named.contains name

def names (r : Router H) : List Text := r.named.keys

def namedRoute (r : Router H) (name : Text) : Except RouteError (NamedRoute H) :=
  match r.named.find? name with
  | some route => .ok route
  | none => .error (.noSuchRoute name)

def endpointsOf (r : Router H) (name : Text) : Except RouteError (List (Endpoint H)) :=
  (r.namedRoute name).map NamedRoute.endpoints

def address (r : Router H) (name : Text) (values : Values) : Except RouteError Text := do
  let route ← r.namedRoute name
  let path ← route.path name r.config.encodeSegments values.params
  return path ++ Query.write values.query.entries

end Router
end Routing
