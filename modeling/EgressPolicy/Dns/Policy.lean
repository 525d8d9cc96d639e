import EgressPolicy.Directive.Basic
import EgressPolicy.Dns.Document

/-!
The DNS policy of a compilation.

The operator's document is adopted whole where it can be used; elsewhere the policy has one fallback
server. The name servers of the panel follow, in the order of the nodes and of their routes.
-/

namespace EgressPolicy.Dns

/-- The DNS section for the engine. -/
structure Policy where
  servers : List Server
  strategy : QueryStrategy
  /-- The other members of an adopted document. -/
  extra : Json.Members
  deriving DecidableEq

namespace Policy

/-- The policy of a document, with a strategy where it names none. -/
def adopt (document : Document) (hostStrategy : QueryStrategy) : Policy :=
  ⟨document.servers, document.strategy.getD hostStrategy, document.extra⟩

/-- The policy without a document. -/
def synthesize (fallback : String) (hostStrategy : QueryStrategy) : Policy :=
  ⟨[Server.ofAddress fallback], hostStrategy, []⟩

/-- The policy before the panel has added to it. -/
def base (file : File) (fallback : String) (hasPublicIpv6 : Bool) : Policy :=
  let hostStrategy := QueryStrategy.ofHost hasPublicIpv6
  match file.usable? Document.ofText with
  | some document => adopt document hostStrategy
  | none => synthesize fallback hostStrategy

/-- The name server that a route adds. -/
def serverOfRoute? (r : Route) : Option Server :=
  match Directive.ofRoute r with
  | .ok (some (.dns server domains)) => some { Server.ofAddress server with domains }
  | _ => none

def panelServers (nodes : List Node) : List Server :=
  (Node.entries nodes).filterMap fun entry => serverOfRoute? entry.2

def resolve (file : File) (fallback : String) (hasPublicIpv6 : Bool) (nodes : List Node) : Policy :=
  let policy := base file fallback hasPublicIpv6
  { policy with servers := policy.servers ++ panelServers nodes }

/-- The JSON of a policy: servers, query strategy and the other members. -/
def toJson (p : Policy) : Json :=
  .object
    (("servers", .array (p.servers.map Server.toJson)) ::
      ("queryStrategy", .string p.strategy.name) :: p.extra)

end Policy

end EgressPolicy.Dns
