/-!
How a routing table is compiled.
-/

namespace EgressPolicy.Routing

/-- The source that block rules reject unless another one is chosen. -/
def defaultSource : String := "geoip:cn"

/-- How a table is compiled. -/
structure Options where
  /-- The source that block rules reject. -/
  source : String := defaultSource
  /-- Whether the older schema of the block list counts. -/
  legacy : Bool := false
  deriving DecidableEq, Repr

end EgressPolicy.Routing
