import EgressPolicy.Directive.Basic
import EgressPolicy.Outbound.Registry
import EgressPolicy.Override.Policy
import EgressPolicy.Routing.Options
import EgressPolicy.Routing.RuleList
import EgressPolicy.Routing.Table

/-!
Compiling nodes into a routing table.

Three kinds of rules follow each other: a block rule for every node that the overrides name, each
put in front of those before it; the rule for name queries; and the rules of the panel's routes, in
the order of the nodes and of their routes. A route that names an outbound registers it first and
has no rule where that fails. Nothing here fails as a whole.
-/

namespace EgressPolicy.Routing

open Outbound (Registry)

/-- A table in the making, and the outbounds registered so far. -/
structure State where
  rules : RuleList
  registry : Registry

/-- Registers an outbound and makes a rule for its tag; no rule where it cannot be registered. -/
def ruleFor (registry : Registry) (outbound : Outbound.Descriptor) (rule : String → Rule) :
    Option Rule × Registry :=
  match registry.register outbound with
  | (.ok tag, registry) => (some (rule tag), registry)
  | (.error _, registry) => (none, registry)

/-- The rule of a directive of an inbound, and the registry after it. -/
def ruleOfDirective (inbound : String) (registry : Registry) : Directive → Option Rule × Registry
  | .dns _ _ => (none, registry)
  | .block domains =>
    (some (.ofMatcher inbound Outbound.Target.blockTag (.domains domains)), registry)
  | .blockIp ips =>
    (some (.ofMatcher inbound Outbound.Target.blockTag (.ips ips)), registry)
  | .blockPort ports =>
    (some (.ofMatcher inbound Outbound.Target.blockTag (.ports ports)), registry)
  | .protocol names =>
    (some (.ofMatcher inbound Outbound.Target.blockTag (.protocols names)), registry)
  | .route domains outbound =>
    ruleFor registry outbound fun tag => .ofMatcher inbound tag (.domains domains)
  | .routeIp ips outbound =>
    ruleFor registry outbound fun tag => .ofMatcher inbound tag (.ips ips)
  | .defaultOut outbound => ruleFor registry outbound fun tag => .catchAll inbound tag

/-- The rule of a route of an inbound, and the registry after it. -/
def ruleOfRoute (inbound : String) (registry : Registry) (r : Route) : Option Rule × Registry :=
  match Directive.ofRoute r with
  | .ok (some directive) => ruleOfDirective inbound registry directive
  | .ok none | .error _ => (none, registry)

namespace State

/-- Takes one route and the tag of its inbound. -/
def add (s : State) (entry : String × Route) : State :=
  match ruleOfRoute entry.1 s.registry entry.2 with
  | (some rule, registry) => ⟨s.rules.append rule, registry⟩
  | (none, registry) => ⟨s.rules, registry⟩

end State

namespace Options

/-- The block rules: every node that the overrides name puts one in front. -/
def blockRules (o : Options) (overrides : Override.Policy) (nodes : List Node) : RuleList :=
  nodes.foldl
    (fun rules n =>
      if overrides.blocks n o.legacy then rules.insertHead (.blockSource n.tag o.source) else rules)
    RuleList.empty

/-- Compiles nodes into a table and registers the outbounds that they name. -/
def compile (o : Options) (nodes : List Node) (overrides : Override.Policy) (registry : Registry) :
    Table × Registry :=
  let start : State := ⟨(o.blockRules overrides nodes).append .dnsHijack, registry⟩
  let final := (Node.entries nodes).foldl State.add start
  (⟨overrides.strategy, final.rules.toList⟩, final.registry)

end Options

end EgressPolicy.Routing
