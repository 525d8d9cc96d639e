import EgressPolicy.Engine.Compile
import EgressPolicy.Proofs.Engine.VerdictTheorems

/-!
A whole compilation: when it fails, and what a success promises.

Only the operator can make a compilation fail, by a name server without an address
(`compile_error_iff`); no route, no file of overrides and no setting of the routing does. Where it
succeeds, the outbounds are the builtin ones and those that the rules refer to, and at each moment
on the way every rule had its outbound (`outbounds_of_compile`).
-/

namespace EgressPolicy.Engine

open Outbound (Registry Target)

/-- The configuration that a compilation puts together before the last look. -/
def assembled (settings : Settings) (host : Host) (nodes : List Node) : Config :=
  let routing :=
    settings.routingOptions.compile nodes (Override.Policy.ofFile host.routeFile) Registry.seeded
  ⟨Dns.Policy.resolve host.dnsFile settings.fallbackDns host.hasPublicIpv6 nodes,
    routing.2.targets, routing.1⟩

/-- A compilation hands out what it put together unless a server of the base has no address. -/
theorem compile_eq (settings : Settings) (host : Host) (nodes : List Node) :
    compile settings host nodes =
      match firstBlank? (baseServers host.dnsFile settings.fallbackDns) with
      | some i => .error (.emptyServerAddress i)
      | none => .ok (assembled settings host nodes) := by
  have hrouting := checkRouting_compile settings.routingOptions nodes
    (Override.Policy.ofFile host.routeFile)
  rw [compile]
  simp only [checkDns_resolve, hrouting]
  cases firstBlank? (baseServers host.dnsFile settings.fallbackDns) <;> rfl

theorem compile_eq_ok {settings : Settings} {host : Host}
    (h : firstBlank? (baseServers host.dnsFile settings.fallbackDns) = none) (nodes : List Node) :
    compile settings host nodes = .ok (assembled settings host nodes) := by
  rw [compile_eq, h]

theorem compile_eq_error_iff (settings : Settings) (host : Host) (nodes : List Node)
    (e : Rejection) :
    compile settings host nodes = .error e ↔
      ∃ i, firstBlank? (baseServers host.dnsFile settings.fallbackDns) = some i ∧
        e = .emptyServerAddress i := by
  rw [compile_eq]
  cases firstBlank? (baseServers host.dnsFile settings.fallbackDns) with
  | none => simp
  | some i => simp [eq_comm]

/-- **When a compilation fails.** It fails exactly when a server that the policy begins with has a
blank address, and reports the first such server. The other rejections never occur, and neither the
nodes nor anything that only the routing reads changes the answer. -/
theorem compile_error_iff (settings : Settings) (host : Host) (nodes : List Node) :
    ((∃ e, compile settings host nodes = .error e) ↔
      ∃ s ∈ baseServers host.dnsFile settings.fallbackDns, Text.trim s.address = "") ∧
    (∀ e, compile settings host nodes = .error e ↔
      ∃ i, firstBlank? (baseServers host.dnsFile settings.fallbackDns) = some i ∧
        e = .emptyServerAddress i) ∧
    (∀ index tag, compile settings host nodes ≠ .error (.unknownOutbound index tag)) ∧
    (∀ index, compile settings host nodes ≠ .error (.ruleWithoutCondition index)) ∧
    ∀ nodes' routeFile source legacy e,
      compile { settings with source, legacy } { host with routeFile } nodes' = .error e ↔
        compile settings host nodes = .error e := by
  refine ⟨?_, compile_eq_error_iff settings host nodes, ?_, ?_, ?_⟩
  · have hsome : (firstBlank? (baseServers host.dnsFile settings.fallbackDns)).isSome = true ↔
        ∃ s ∈ baseServers host.dnsFile settings.fallbackDns, Text.trim s.address = "" := by
      rw [firstBlank?, List.findIdx?_isSome, List.any_eq_true]
      simp
    rw [← hsome, compile_eq]
    cases firstBlank? (baseServers host.dnsFile settings.fallbackDns) <;> simp
  · intro index tag h
    obtain ⟨i, -, he⟩ := (compile_eq_error_iff settings host nodes _).mp h
    cases he
  · intro index h
    obtain ⟨i, -, he⟩ := (compile_eq_error_iff settings host nodes _).mp h
    cases he
  · intro nodes' routeFile source legacy e
    rw [compile_eq_error_iff, compile_eq_error_iff]

/-- A successful compilation hands out what it put together. -/
theorem eq_assembled_of_compile {settings : Settings} {host : Host} {nodes : List Node}
    {config : Config} (h : compile settings host nodes = .ok config) :
    config = assembled settings host nodes := by
  rw [compile_eq] at h
  split at h
  · cases h
  · exact (Except.ok.inj h).symm

/-- **Outbounds and rules agree.** The outbounds of a successful compilation are the builtin ones
and then one for each other tag that the rules refer to, in the order of first mention. The
compilation ends in what it hands out, and in every state on the way there each rule already has its
outbound. -/
theorem outbounds_of_compile {settings : Settings} {host : Host} {nodes : List Node}
    {config : Config} (h : compile settings host nodes = .ok config) :
    (∃ new, config.outbounds = Target.builtins ++ new ∧
      new.map Target.tag = Routing.foreignTags config.routing.rules) ∧
    (∃ s, (settings.routingOptions.history nodes (Override.Policy.ofFile host.routeFile)
        Registry.seeded).getLast? = some s ∧
      config.routing.rules = s.rules.toList ∧ config.outbounds = s.registry.targets) ∧
    ∀ s ∈ settings.routingOptions.history nodes (Override.Policy.ofFile host.routeFile)
        Registry.seeded, ∀ rule ∈ s.rules.toList, s.registry.contains rule.outboundTag = true := by
  obtain rfl := eq_assembled_of_compile h
  obtain ⟨s, hlast, hs⟩ := Routing.getLast?_history settings.routingOptions nodes
    (Override.Policy.ofFile host.routeFile) Registry.seeded
  have hagrees := Routing.agrees_of_mem_history (List.mem_of_getLast? hlast)
  refine ⟨?_, ⟨s, hlast, ?_, ?_⟩, ?_⟩
  · simp only [assembled, hs]
    exact hagrees.targets
  · simp only [assembled, hs]
  · simp only [assembled, hs]
  · intro t ht rule hrule
    exact (Routing.agrees_of_mem_history ht).contains_outboundTag hrule

/-- A host without public IPv6 address and without files. -/
def bareHost : Host :=
  ⟨false, .absent, .absent⟩

/-- Two nodes that share an outbound. The first route refers to it before it is there, the third has
no valid port, and the fourth describes an outbound that the engine cannot build. -/
def twoNodes : List Node :=
  [⟨3, "a",
    [⟨none, "route", ["early.example"], some "\x7b\"tag\":\"us\"\x7d"⟩,
     ⟨none, "route", ["x.example"], some "\x7b\"tag\":\"us\",\"protocol\":\"VMess\"\x7d"⟩,
     ⟨none, "block_port", ["0"], none⟩]⟩,
   ⟨7, "b",
    [⟨none, "route_ip", ["10.0.0.0/8"], some "\x7b\"tag\":\"odd\",\"protocol\":\"smoke\"\x7d"⟩,
     ⟨none, "default_out", [], some "\x7b\"tag\":\"us\"\x7d"⟩]⟩]

theorem compile_twoNodes : compile {} bareHost twoNodes = .ok (assembled {} bareHost twoNodes) :=
  compile_eq_ok (by decide) twoNodes

theorem outbounds_of_compile_twoNodes :
    compile {} bareHost twoNodes = .ok (assembled {} bareHost twoNodes) ∧
    (assembled {} bareHost twoNodes).routing.rules.map Routing.Rule.outboundTag =
      ["dns_out", "us", "us"] ∧
    ∃ new, (assembled {} bareHost twoNodes).outbounds = Target.builtins ++ new ∧
      new.map Target.tag = ["us"] := by
  have htags : Routing.foreignTags (assembled {} bareHost twoNodes).routing.rules = ["us"] := by
    decide +kernel
  refine ⟨compile_twoNodes, by decide +kernel, ?_⟩
  rw [← htags]
  exact (outbounds_of_compile compile_twoNodes).1

end EgressPolicy.Engine
