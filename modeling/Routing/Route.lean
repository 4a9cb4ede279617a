import Routing.Segment
import Routing.Specificity

/-! Routes: the segments of a pattern text. -/

namespace Routing

structure Route where
  /-- All segments in order, epsilons included. -/
  segments : List Segment
  deriving DecidableEq

namespace Route

/-- One leading slash is dropped, so `/posts` and `posts` are the same route. -/
def parse (n : Normalizer) (pattern : Text) : Route :=
  ⟨((pattern.dropLeading '/').splitOn '/').map (Segment.parse n)⟩

def params (r : Route) : List Param := r.segments.filterMap Segment.param?

def specificity (r : Route) : Specificity := ⟨r.segments.map Segment.digit⟩

end Route
end Routing
