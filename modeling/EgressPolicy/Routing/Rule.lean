import EgressPolicy.Json.Value
import EgressPolicy.Outbound.Target

/-!
Routing rules.

The engine takes the first rule that matches. A rule says where traffic comes in, what it has to
match, and which outbound it leaves through; without a matcher it takes whole transports.
-/

namespace EgressPolicy.Routing

inductive Matcher where
  | domains (patterns : List String)
  | ips (patterns : List String)
  /-- Ports and ranges of ports, separated by commas. -/
  | ports (list : String)
  | protocols (names : List String)
  /-- Where traffic comes from, such as a country. -/
  | sources (selectors : List String)
  deriving DecidableEq, Repr

structure Rule where
  /-- The inbounds whose traffic the rule is for; none means all. -/
  inboundTags : List String
  outboundTag : String
  matcher : Option Matcher
  /-- The transports that the rule is for, if it says so. -/
  network : Option String
  deriving DecidableEq, Repr

/-- The member that a matcher is written as. -/
def Matcher.member : Matcher → String × Json
  | domains patterns => ("domain", Json.ofStrings patterns)
  | ips patterns => ("ip", Json.ofStrings patterns)
  | ports list => ("port", .string list)
  | protocols names => ("protocol", Json.ofStrings names)
  | sources selectors => ("source", Json.ofStrings selectors)

namespace Rule

/-- The rule that sends what matches from an inbound to an outbound. -/
def ofMatcher (inbound outbound : String) (matcher : Matcher) : Rule :=
  ⟨[inbound], outbound, some matcher, none⟩

/-- The rule that drops what comes from a source into an inbound. -/
def blockSource (inbound source : String) : Rule :=
  ofMatcher inbound Outbound.Target.blockTag (.sources [source])

/-- The rule that sends name queries of every inbound to the outbound that answers them. -/
def dnsHijack : Rule :=
  ⟨[], Outbound.Target.dnsTag, some (.ports "53"), some "udp"⟩

/-- The rule that sends all that an inbound takes in to an outbound. -/
def catchAll (inbound outbound : String) : Rule :=
  ⟨[inbound], outbound, none, some "tcp,udp"⟩

/-- The JSON of a rule; what it does not say is left out. -/
def toJson (r : Rule) : Json :=
  .object
    ((if r.inboundTags = [] then [] else [("inboundTag", Json.ofStrings r.inboundTags)]) ++
     [("outboundTag", .string r.outboundTag)] ++
     (match r.matcher with
      | some matcher => [matcher.member]
      | none => []) ++
     (match r.network with
      | some network => [("network", .string network)]
      | none => []))

end Rule

end EgressPolicy.Routing
