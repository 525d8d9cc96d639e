import EgressPolicy.Proofs.Engine.CompileTheorems

/-!
The sections do not interfere.

A configuration has a DNS side and a routing side, and every route is visited for both. What a route
is for shows in its action alone, before anything in it is checked: a route with the action for name
servers leaves the table and the registry as they are (`add_of_isDns`), and every other route leaves
the name servers as they are (`serverOfRoute?_of_not_isDns`). So two compilations that agree on what
one side reads have the same result on that side (`compile_noninterference`).
-/

namespace EgressPolicy

open Outbound (Registry)
open Routing (State)

/-! ## Two kinds of routes -/

/-- Whether a route is meant for name servers. Its other parts may be anything. -/
def Route.isDns (r : Route) : Bool :=
  r.action == Action.dns.name

def Node.withoutDns (n : Node) : Node :=
  { n with routes := n.routes.filter fun r => !r.isDns }

/-- The routes for name servers, in the order of the nodes and of their routes. -/
def Node.dnsRoutes (nodes : List Node) : List Route :=
  nodes.flatMap fun n => n.routes.filter Route.isDns

/-- A route is for name servers exactly when the directive that it is accepted as is. -/
theorem Route.isDns_iff {r : Route} {d : Directive} (h : r.directive? = some d) :
    r.isDns = true ↔ d.action = .dns := by
  have hname := (directive?_eq_some_iff.mp h).1
  rw [isDns, hname]
  cases d.action <;> decide

/-- A route for name servers asks for no rule and names no outbound. -/
theorem Route.rule?_of_isDns {r : Route} (h : r.isDns = true) (inbound : String) :
    r.rule? inbound = none ∧ r.outbound? = none := by
  rw [rule?, outbound?]
  cases hdir : r.directive? with
  | none => exact ⟨rfl, rfl⟩
  | some d =>
    have haction := (isDns_iff hdir).mp h
    cases d with
    | dns _ _ => exact ⟨rfl, rfl⟩
    | block _ | blockIp _ | blockPort _ | protocol _ | route _ _ | routeIp _ _ | defaultOut _ =>
      cases haction

/-- The routing side passes over a route for name servers. -/
theorem add_of_isDns {entry : String × Route} (h : entry.2.isDns = true) (s : State) :
    s.add entry = s := by
  obtain ⟨hrule, hout⟩ := Route.rule?_of_isDns h entry.1
  rw [State.add, Routing.ruleOfRoute_eq, hrule, Route.register, hout, ite_self]

/-- The DNS side passes over every other route. -/
theorem serverOfRoute?_of_not_isDns {r : Route} (h : ¬ r.isDns = true) :
    Dns.Policy.serverOfRoute? r = none := by
  cases hserver : Dns.Policy.serverOfRoute? r with
  | none => rfl
  | some s =>
    obtain ⟨server, domains, hdir, -⟩ := serverOfRoute?_eq_some_iff.mp hserver
    exact absurd ((Route.isDns_iff hdir).mpr rfl) h

/-! ## What each side reads -/

theorem entries_withoutDns (nodes : List Node) :
    Node.entries (nodes.map Node.withoutDns) =
      (Node.entries nodes).filter fun entry => !entry.2.isDns := by
  rw [Node.entries, Node.entries, List.flatMap_map, List.filter_flatMap]
  refine List.flatMap_congr fun n _ => ?_
  rw [List.filter_map]
  rfl

/-- The routing side of a compilation does not read the routes for name servers. -/
theorem compile_withoutDns (o : Routing.Options) (nodes : List Node)
    (overrides : Override.Policy) (registry : Registry) :
    o.compile (nodes.map Node.withoutDns) overrides registry =
      o.compile nodes overrides registry := by
  have hblocks : o.blockRules overrides (nodes.map Node.withoutDns) =
      o.blockRules overrides nodes := by
    rw [Routing.Options.blockRules, List.foldl_map]
    rfl
  have hadd : (fun s entry => if (!entry.2.isDns) = true then State.add s entry else s)
      = State.add := by
    funext s entry
    cases hdns : entry.2.isDns with
    | true => exact (add_of_isDns hdns s).symm
    | false => rfl
  rw [Routing.compile_eq_run, Routing.compile_eq_run, Routing.Options.start, hblocks,
    entries_withoutDns, List.foldl_filter, hadd]
  rfl

/-- The DNS side of a compilation reads nothing of the nodes but the routes for name servers. -/
theorem panelServers_eq_filterMap (nodes : List Node) :
    Dns.Policy.panelServers nodes =
      (Node.dnsRoutes nodes).filterMap Dns.Policy.serverOfRoute? := by
  rw [Dns.Policy.panelServers, Node.entries, Node.dnsRoutes, List.filterMap_flatMap,
    List.filterMap_flatMap]
  refine List.flatMap_congr fun n _ => ?_
  rw [List.filterMap_map, List.filterMap_filter]
  refine List.filterMap_congr fun r _ => ?_
  by_cases hdns : r.isDns = true
  · rw [if_pos hdns]
    rfl
  · rw [if_neg hdns]
    exact serverOfRoute?_of_not_isDns hdns

/-! ## Two compilations -/

namespace Engine

/-- **Noninterference.** Two compilations have the same outbounds and the same routing where they
agree on the overrides, on what the settings say of routing and, node by node, on everything but the
routes for name servers. They have the same DNS policy, or fail alike, where they agree on the DNS
document, the fallback server, the address families of the host and the routes for name servers. -/
theorem compile_noninterference (settings settings' : Settings) (host host' : Host)
    (nodes nodes' : List Node) :
    (host.routeFile = host'.routeFile → settings.source = settings'.source →
      settings.legacy = settings'.legacy →
      nodes.map Node.withoutDns = nodes'.map Node.withoutDns →
      ∀ config config', compile settings host nodes = .ok config →
        compile settings' host' nodes' = .ok config' →
        config.outbounds = config'.outbounds ∧ config.routing = config'.routing) ∧
    (host.dnsFile = host'.dnsFile → settings.fallbackDns = settings'.fallbackDns →
      host.hasPublicIpv6 = host'.hasPublicIpv6 →
      Node.dnsRoutes nodes = Node.dnsRoutes nodes' →
      (compile settings host nodes).map Config.dns =
        (compile settings' host' nodes').map Config.dns) := by
  constructor
  · intro hfile hsource hlegacy hnodes config config' hc hc'
    obtain rfl := eq_assembled_of_compile hc
    obtain rfl := eq_assembled_of_compile hc'
    have hrouting : settings.routingOptions.compile nodes
          (Override.Policy.ofFile host.routeFile) Registry.seeded =
        settings'.routingOptions.compile nodes'
          (Override.Policy.ofFile host'.routeFile) Registry.seeded := by
      -- Both tables are those of the nodes without their routes for name servers.
      rw [← compile_withoutDns, hnodes, compile_withoutDns, hfile, Settings.routingOptions,
        hsource, hlegacy]
      rfl
    rw [assembled, assembled, hrouting]
    exact ⟨rfl, rfl⟩
  · intro hfile hfallback hhost hroutes
    have hdns : (assembled settings host nodes).dns = (assembled settings' host' nodes').dns := by
      simp only [assembled, Dns.Policy.resolve, panelServers_eq_filterMap, hfile, hfallback, hhost,
        hroutes]
    -- Whether a compilation fails depends on the servers that the policy begins with alone.
    rw [compile_eq, compile_eq, hfile, hfallback]
    cases firstBlank? (baseServers host'.dnsFile settings'.fallbackDns) with
    | none => exact congrArg Except.ok hdns
    | some i => rfl

/-- A name server, and one that was left out. -/
def resolvers : List Route :=
  [⟨none, "dns", ["geosite:netflix"], some "9.9.9.9"⟩, ⟨none, "dns", [], none⟩]

/-- A route that blocks, and one with an action that is not known. -/
def others : List Route :=
  [⟨none, "block", ["ads.example"], none⟩, ⟨none, "jump", [], none⟩]

/-- A host with an operator's own name server. -/
def resolvingHost : Host :=
  ⟨true, .ofText "\x7b\"servers\":[\"8.8.8.8\"]\x7d", .absent⟩

/-- First two compilations whose DNS policies differ; then two that share nothing but their routes
for name servers, one of them with overrides that cannot be read. -/
theorem compile_noninterference_resolvers :
    (∃ config config', compile {} bareHost [⟨3, "a", resolvers ++ others⟩] = .ok config ∧
      compile { fallbackDns := "1.1.1.1" } resolvingHost [⟨3, "a", others⟩] = .ok config' ∧
      config.dns ≠ config'.dns ∧
      config.outbounds = config'.outbounds ∧ config.routing = config'.routing) ∧
    (compile {} bareHost [⟨3, "a", resolvers⟩]).map Config.dns =
      (compile { legacy := true, source := "geoip:ir" } { bareHost with routeFile := .directory }
        [⟨7, "b", others ++ resolvers.take 1⟩, ⟨9, "c", resolvers.drop 1⟩]).map Config.dns := by
  constructor
  · have hc := @compile_eq_ok {} bareHost (by decide) [⟨3, "a", resolvers ++ others⟩]
    have hc' := @compile_eq_ok { fallbackDns := "1.1.1.1" } resolvingHost (by decide +kernel)
      [⟨3, "a", others⟩]
    have hrouting := (compile_noninterference {} { fallbackDns := "1.1.1.1" } bareHost resolvingHost
      [⟨3, "a", resolvers ++ others⟩] [⟨3, "a", others⟩]).1 rfl rfl rfl (by decide) _ _ hc hc'
    exact ⟨_, _, hc, hc', by decide +kernel, hrouting⟩
  · exact (compile_noninterference {} { legacy := true, source := "geoip:ir" } bareHost
      { bareHost with routeFile := .directory } [⟨3, "a", resolvers⟩]
      [⟨7, "b", others ++ resolvers.take 1⟩, ⟨9, "c", resolvers.drop 1⟩]).2 rfl rfl rfl (by decide)

end Engine

end EgressPolicy
