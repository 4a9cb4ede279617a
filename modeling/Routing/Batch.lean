import Routing.Error
import Routing.Graph.Basic
import Routing.Pattern.Basic
import Routing.Route

/-! Batches: routes that continue one another and share one end. A batch is a word of character
classes for the graph, a pattern for the captures, and an entry to store at the word's end. -/

namespace Routing

/-- A handler and the parameters of its own route. The names and the decode flags of an endpoint are one
list, so there are as many of the one as of the other by layout. -/
structure Endpoint (H : Type) where
  handler : H
  params : List Param

/-- What is stored at the end of a batch's word. -/
structure Entry (H : Type) where
  pattern : Pattern
  endpoints : List (Endpoint H)
  specificity : Specificity

namespace Segment

/-- The classes that lead through one segment, without its slash. -/
def classes : Segment → List CharClass
  | static text => text.map CharClass.exactly
  | dynamic _ => [.deny ['/']]
  | star _ => [.deny []]
  | epsilon => []

/-- The segments that take part in a path. -/
def visible (ss : List Segment) : List Segment := ss.filter (! ·.isEpsilon)

/-- The word of a sequence of segments. Without a visible segment it is a single slash. -/
def word (ss : List Segment) : List CharClass :=
  if (visible ss).isEmpty then [.exactly '/']
  else (visible ss).flatMap fun s => .exactly '/' :: s.classes

end Segment

/-- The pattern of a sequence of segments. Without a visible segment it is a single slash. -/
def Pattern.ofSegments (ss : List Segment) : Pattern :=
  if (Segment.visible ss).isEmpty then ⟨[.slash]⟩
  else ⟨(Segment.visible ss).flatMap fun s => .slash :: ofSegment s⟩

/-- Routes with their handlers, in the order in which they continue one another. -/
abbrev Batch (H : Type) := List (Route × H)

namespace Batch

variable {H : Type}

def parse (n : Normalizer) (routes : List (Text × H)) : Batch H :=
  routes.map fun (pattern, handler) => (Route.parse n pattern, handler)

def segments (b : Batch H) : List Segment := b.flatMap (·.1.segments)

def params (b : Batch H) : List Param := b.flatMap (·.1.params)

def endpoints (b : Batch H) : List (Endpoint H) := b.map fun (route, h) => ⟨h, route.params⟩

def word (b : Batch H) : List CharClass := Segment.word b.segments

def pattern (b : Batch H) : Pattern := Pattern.ofSegments b.segments

/-- The last route speaks for the batch. -/
def specificity (b : Batch H) : Specificity := (b.getLast?.map (·.1.specificity)).getD ⟨[]⟩

def entry (b : Batch H) : Entry H := ⟨b.pattern, b.endpoints, b.specificity⟩

/-- Whether a batch is entered: an empty one is not, and one whose pattern is refused is an error. -/
def check (k : Compiler) (b : Batch H) : Except RouteError Bool :=
  if b.isEmpty then .ok false
  else match k.compile b.pattern.source with
    | .ok () => .ok true
    | .error cause => .error (.invalidPattern b.pattern.source cause)

end Batch
end Routing
