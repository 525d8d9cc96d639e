import EgressPolicy.Json.Value
import EgressPolicy.Text.Decimal

/-!
Nodes of the panel.

A node is a proxy inbound with its routes, each a routing wish in the words of the panel: nothing in
a route has been checked.
-/

namespace EgressPolicy

/-- One routing wish of a node, as it is sent. -/
structure Route where
  /-- The panel's number for the route, which nothing refers to. -/
  id : Option Int64
  /-- What to do, by name. -/
  action : String
  /-- The domains, addresses, ports or protocols to do it with. -/
  patterns : List String
  /-- A name server or the text of an outbound descriptor, as the action asks. -/
  value : Option String
  deriving DecidableEq, Repr

/-- A proxy inbound. -/
structure Node where
  /-- The panel's number for the node, by which block lists refer to it. -/
  id : Int64
  /-- The tag of the inbound listener. -/
  tag : String
  /-- The routes in the panel's order. -/
  routes : List Route
  deriving DecidableEq, Repr

/-- The JSON of a route. Its number is left out where it has none. -/
def Route.toJson (r : Route) : Json :=
  .object
    ((match r.id with
      | some id => [("id", .number (.integer id.toInt))]
      | none => []) ++
     [("action", .string r.action),
      ("match", Json.ofStrings r.patterns),
      ("action_value",
        match r.value with
        | some value => .string value
        | none => .null)])

def Node.toJson (n : Node) : Json :=
  .object
    [("id", .number (.integer n.id.toInt)),
     ("tag", .string n.tag),
     ("routes", .array (n.routes.map Route.toJson))]

/-- The routes of a list of nodes, in the order of the nodes and of their routes, each with the tag
of its inbound. -/
def Node.entries (nodes : List Node) : List (String × Route) :=
  nodes.flatMap fun n => n.routes.map fun r => (n.tag, r)

end EgressPolicy
