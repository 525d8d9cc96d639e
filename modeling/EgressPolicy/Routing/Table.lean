import EgressPolicy.Override.DomainStrategy
import EgressPolicy.Routing.Rule

/-!
Routing tables: the routing section for the engine.
-/

namespace EgressPolicy.Routing

structure Table where
  strategy : Override.DomainStrategy
  /-- The rules; the first one that matches counts. -/
  rules : List Rule
  deriving DecidableEq, Repr

def Table.toJson (t : Table) : Json :=
  .object
    [("domainStrategy", .string t.strategy.name), ("rules", .array (t.rules.map Rule.toJson))]

end EgressPolicy.Routing
