import Routing.Text

/-! Causes for which a route is not registered, found or written. -/

namespace Routing

inductive RouteError where
  | noSuchRoute (name : Text)
  | missingParameter (route param : Text)
  /-- The notation of a pattern was refused. -/
  | invalidPattern (pattern cause : Text)
  deriving DecidableEq

def RouteError.message : RouteError → Text
  | noSuchRoute name => "There is no route named ".toList ++ name
  | missingParameter route param =>
    "Route '".toList ++ route ++ "' requires a value for parameter '".toList ++ param
      ++ "'".toList
  | invalidPattern pattern cause =>
    "Invalid extraction pattern '".toList ++ pattern ++ "': ".toList ++ cause

end Routing
