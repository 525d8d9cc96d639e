import EgressPolicy.Engine.Verdict
import EgressPolicy.Routing.Compile
import EgressPolicy.Settings

/-!
A whole compilation.

The DNS policy, the outbounds and the routing table are made from the nodes, the settings, what the
host can do and the two files of the operator. The result is handed out only where the engine would
take it.
-/

namespace EgressPolicy.Engine

structure Config where
  dns : Dns.Policy
  outbounds : List Outbound.Target
  routing : Routing.Table
  deriving DecidableEq

def Config.toJson (c : Config) : Json :=
  .object
    [("dns", c.dns.toJson),
     ("outbounds", .array (c.outbounds.map Outbound.Target.definition)),
     ("routing", c.routing.toJson)]

/-- What a compilation finds on the host. -/
structure Host where
  /-- Whether the host has a public IPv6 address. -/
  hasPublicIpv6 : Bool
  /-- The operator's DNS document. -/
  dnsFile : File
  /-- The operator's overrides for routing. -/
  routeFile : File

/-- Compiles nodes on a host. Faults in files and routes are passed over; only a configuration that
the engine would not take is an error. -/
def compile (settings : Settings) (host : Host) (nodes : List Node) : Except Rejection Config := do
  let dns := Dns.Policy.resolve host.dnsFile settings.fallbackDns host.hasPublicIpv6 nodes
  let overrides := Override.Policy.ofFile host.routeFile
  let (routing, registry) :=
    settings.routingOptions.compile nodes overrides Outbound.Registry.seeded
  checkDns dns
  checkRouting routing registry
  return ⟨dns, registry.targets, routing⟩

end EgressPolicy.Engine
