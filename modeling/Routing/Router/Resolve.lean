import Routing.Percent.Uri
import Routing.Pattern.Captures
import Routing.Router.Basic

/-! Resolution: the graph tells which batches a path belongs to, the most specific of them wins,
and its pattern reads the parameters off the path. -/

namespace Routing

/-- A handler with the values of the parameters that its own route declares. -/
structure Hit (H : Type) where
  handler : H
  params : Dict Text
  isDynamic : Bool

/-- One hit for each handler of the winning batch, in the order of registration. -/
structure Resolution (H : Type) where
  hits : List (Hit H)
  query : Query

/-- The path of an address and its query, if it has one. A fragment is left out. -/
def splitAddress (s : Text) : Text × Option Text := (s.cut '#').1.cut '?'

def rooted (s : Text) : Text := if s.head? = some '/' then s else '/' :: s

/-- The first entry that no other one exceeds in specificity. -/
def Entry.best? {H : Type} (entries : List (Entry H)) : Option (Entry H) :=
  entries.foldl (fun best e =>
    match best with
    | none => some e
    | some b => if compare b.specificity e.specificity = .lt then some e else some b) none

/-- A path in the form that is walked and in the form that captures are read from, and whether a
closing slash was dropped from them. -/
structure PathForms where
  walked : Text
  read : Text
  slashDropped : Bool

/-- A closing slash is dropped unless it is the whole path. -/
def PathForms.trim (walked read : Text) : PathForms :=
  if 1 < walked.length && walked.endsWith '/' then
    ⟨walked.dropLast, read.dropTrailing '/', true⟩
  else ⟨walked, read, false⟩

namespace Endpoint

variable {H : Type}

def value (decode : Bool) (p : Param) (capture : Text) : Text :=
  if decode && p.decode then Percent.decodeOrKeep capture else capture

def bindings (decode : Bool) : List Param → List Text → List (Text × Text)
  | [], _ => []
  | p :: ps, captures =>
    (p.name, value decode p (captures.headD [])) :: bindings decode ps captures.tail

def hit (e : Endpoint H) (decode : Bool) (captures : List Text) : Hit H :=
  ⟨e.handler, Dict.ofList (bindings decode e.params captures), ! e.params.isEmpty⟩

/-- Each endpoint takes as many captures as it has parameters. -/
def deal (decode : Bool) : List (Endpoint H) → List Text → List (Hit H)
  | [], _ => []
  | e :: es, captures => e.hit decode captures :: deal decode es (captures.drop e.params.length)

end Endpoint

/-- The hits of a path, if the entry's pattern matches it. A star at the end keeps the slash. -/
def Entry.hits? {H : Type} (e : Entry H) (decode : Bool) (p : PathForms) :
    Option (List (Hit H)) :=
  let text := if p.slashDropped && e.pattern.closesWithStar then p.read ++ ['/'] else p.read
  (e.pattern.captures? text).map (Endpoint.deal decode e.endpoints)

namespace Router

variable {H : Type}

def pathForms (r : Router H) (path : Text) : PathForms :=
  if r.config.encodeSegments then PathForms.trim (r.normalizer.path path) path
  else PathForms.trim (Percent.decodeUri path) (Percent.decodeUri path)

def select (r : Router H) (walked : Text) : Option (Entry H) :=
  Entry.best? (r.graph.entries walked)

def resolvePath (r : Router H) (path : Text) : Option (List (Hit H)) :=
  let forms := r.pathForms (rooted path)
  (r.select forms.walked).bind fun e => e.hits? r.config.encodeSegments forms

def resolve (r : Router H) (address : Text) : Option (Resolution H) :=
  let (path, query) := splitAddress address
  (r.resolvePath path).map fun hits => ⟨hits, (query.map Query.parse).getD Dict.empty⟩

end Router
end Routing
