import EgressPolicy.Engine.Verdict
import EgressPolicy.Proofs.Routing.AgreementTheorems

/-!
What the engine's last look finds.

Looking at a list reports the first fault or finds none (`checkEach_eq_ok_iff`,
`exists_split_of_checkEach`, `checkEach_eq_findIdx?`). A compiled routing table can only be refused
for an outbound that is not there (`exists_split_of_checkRouting`), and one that was compiled from
the seeded registry has no fault (`checkRouting_compile`). Of the name servers only those that the
policy begins with can have one (`checkDns_resolve`).
-/

namespace EgressPolicy.Engine

open Outbound (Registry)

/-! ## The first fault of a list -/

section CheckEach

variable {α : Type}

/-- No report means that nothing is at fault. -/
theorem checkEach_eq_ok_iff (fault? : Nat → α → Option Rejection) :
    ∀ (l : List α) (index : Nat), checkEach fault? index l = .ok () ↔
      ∀ k a, l[k]? = some a → fault? (index + k) a = none
  | [], index => by simp [checkEach]
  | a :: rest, index => by
    rw [checkEach]
    constructor
    · intro h k b hb
      cases hf : fault? index a with
      | some fault =>
        simp only [hf] at h
        cases h
      | none =>
        simp only [hf] at h
        cases k with
        | zero =>
          obtain rfl : a = b := by simpa using hb
          exact hf
        | succ k =>
          have hrest := (checkEach_eq_ok_iff fault? rest (index + 1)).mp h k b (by simpa using hb)
          rwa [Nat.add_right_comm, Nat.add_assoc] at hrest
    · intro h
      have hf : fault? index a = none := h 0 a rfl
      simp only [hf]
      refine (checkEach_eq_ok_iff fault? rest (index + 1)).mpr fun k b hb => ?_
      have hrest := h (k + 1) b (by simpa using hb)
      rwa [Nat.add_right_comm, Nat.add_assoc]

/-- A report is the fault of the first member that is at fault. -/
theorem exists_split_of_checkEach {fault? : Nat → α → Option Rejection} {e : Rejection} :
    ∀ {l : List α} {index : Nat}, checkEach fault? index l = .error e →
      ∃ front a back, l = front ++ a :: back ∧ checkEach fault? index front = .ok () ∧
        fault? (index + front.length) a = some e
  | [], index, h => by cases h
  | a :: rest, index, h => by
    rw [checkEach] at h
    cases hf : fault? index a with
    | some fault =>
      simp only [hf] at h
      obtain rfl := Except.error.inj h
      exact ⟨[], a, rest, rfl, rfl, hf⟩
    | none =>
      simp only [hf] at h
      obtain ⟨front, b, back, rfl, hfront, hfault⟩ := exists_split_of_checkEach h
      refine ⟨a :: front, b, back, rfl, ?_, ?_⟩
      · rw [checkEach, hf]
        exact hfront
      · rwa [List.length_cons, Nat.add_comm front.length, ← Nat.add_assoc]

/-- A report that depends on the place alone names the first member at fault. -/
theorem checkEach_eq_findIdx? (isBad : α → Bool) (report : Nat → Rejection) :
    ∀ (l : List α) (index : Nat),
      checkEach (fun i a => if isBad a then some (report i) else none) index l =
        match l.findIdx? isBad with
        | some k => .error (report (index + k))
        | none => .ok ()
  | [], index => rfl
  | a :: rest, index => by
    rw [checkEach, List.findIdx?_cons]
    cases hb : isBad a with
    | true => rfl
    | false =>
      simp only [Bool.false_eq_true, if_false]
      rw [checkEach_eq_findIdx? isBad report rest (index + 1)]
      cases rest.findIdx? isBad with
      | none => rfl
      | some k =>
        have hplace : index + 1 + k = index + (k + 1) := by omega
        simp [hplace]

end CheckEach

/-! ## Routing -/

/-- A rule that a route asks for has a matcher or names transports. -/
theorem hasCondition_of_rule? {r : Route} {inbound : String} {rule : Routing.Rule}
    (h : r.rule? inbound = some rule) : ¬ (rule.matcher = none ∧ rule.network = none) := by
  obtain ⟨directive, -, hrule⟩ := Option.bind_eq_some_iff.mp h
  cases directive with
  | dns _ _ => cases hrule
  | block _ | blockIp _ | blockPort _ | protocol _ | route _ _ | routeIp _ _ | defaultOut _ =>
    rw [← Option.some.inj hrule]
    simp

/-- Every rule of a compiled table has a condition, whatever registry it was compiled with. -/
theorem hasCondition_of_mem_compile {o : Routing.Options} {nodes : List Node}
    {overrides : Override.Policy} {registry : Registry} {rule : Routing.Rule}
    (h : rule ∈ (o.compile nodes overrides registry).1.rules) :
    ¬ (rule.matcher = none ∧ rule.network = none) := by
  rw [Routing.rules_compile, Routing.toList_blockRules] at h
  simp only [List.mem_append, List.mem_reverse, List.mem_map, List.mem_singleton,
    Routing.panelRules, List.mem_filterMap] at h
  rcases h with (⟨n, -, rfl⟩ | rfl) | ⟨⟨entry, i⟩, -, hrule⟩
  · simp [Routing.Rule.blockSource, Routing.Rule.ofMatcher]
  · simp [Routing.Rule.dnsHijack]
  · split at hrule
    · exact hasCondition_of_rule? hrule
    · cases hrule

section CheckRouting

variable {t : Routing.Table} {registry : Registry}

/-- A rule with a condition is at fault when its outbound is not there. -/
theorem ruleFault?_eq (registry : Registry) (index : Nat) {rule : Routing.Rule}
    (h : ¬ (rule.matcher = none ∧ rule.network = none)) :
    ruleFault? registry index rule =
      if registry.contains rule.outboundTag then none
      else some (.unknownOutbound index rule.outboundTag) := by
  rw [ruleFault?, if_neg h]

/-- A table whose rules have conditions is taken when the outbound of each rule is there. -/
theorem checkRouting_eq_ok_iff
    (hcond : ∀ rule ∈ t.rules, ¬ (rule.matcher = none ∧ rule.network = none)) :
    checkRouting t registry = .ok () ↔
      ∀ rule ∈ t.rules, registry.contains rule.outboundTag = true := by
  rw [checkRouting, checkEach_eq_ok_iff]
  constructor
  · intro h rule hrule
    obtain ⟨k, hk⟩ := List.mem_iff_getElem?.mp hrule
    have hnone := h k rule hk
    rw [ruleFault?_eq registry _ (hcond rule hrule)] at hnone
    simpa using hnone
  · intro h k rule hk
    have hrule := List.mem_of_getElem? hk
    rw [ruleFault?_eq registry _ (hcond rule hrule), if_pos (h rule hrule)]

/-- A table whose rules have conditions is refused for the first rule that lacks its outbound. -/
theorem exists_split_of_checkRouting {e : Rejection}
    (hcond : ∀ rule ∈ t.rules, ¬ (rule.matcher = none ∧ rule.network = none))
    (h : checkRouting t registry = .error e) :
    ∃ front rule back, t.rules = front ++ rule :: back ∧
      (∀ other ∈ front, registry.contains other.outboundTag = true) ∧
      registry.contains rule.outboundTag = false ∧
      e = .unknownOutbound front.length rule.outboundTag := by
  obtain ⟨front, rule, back, hrules, hfront, hfault⟩ := exists_split_of_checkEach h
  rw [hrules, List.forall_mem_append, List.forall_mem_cons] at hcond
  have hearlier : checkRouting ⟨t.strategy, front⟩ registry = .ok () := hfront
  rw [ruleFault?_eq registry _ hcond.2.1, Nat.zero_add] at hfault
  refine ⟨front, rule, back, hrules, (checkRouting_eq_ok_iff hcond.1).mp hearlier, ?_⟩
  cases hc : registry.contains rule.outboundTag with
  | true =>
    rw [hc] at hfault
    cases hfault
  | false =>
    rw [hc] at hfault
    exact ⟨rfl, (Option.some.inj hfault).symm⟩

end CheckRouting

/-- **The routing side is always taken**: a table compiled from the seeded registry has no fault. -/
theorem checkRouting_compile (o : Routing.Options) (nodes : List Node)
    (overrides : Override.Policy) :
    checkRouting (o.compile nodes overrides Registry.seeded).1
      (o.compile nodes overrides Registry.seeded).2 = .ok () := by
  refine (checkRouting_eq_ok_iff fun _ => hasCondition_of_mem_compile).mpr fun rule hrule => ?_
  obtain ⟨s, hlast, hs⟩ := Routing.getLast?_history o nodes overrides Registry.seeded
  have hagrees := Routing.agrees_of_mem_history (List.mem_of_getLast? hlast)
  rw [hs] at hrule ⊢
  exact hagrees.contains_outboundTag hrule

/-! ## Name servers -/

/-- The servers that a policy begins with: those of the operator's document, if the file can be read
and holds one, and otherwise the fallback server alone. -/
def baseServers (file : File) (fallback : String) : List Dns.Server :=
  match file.text?.map Dns.Document.ofText with
  | some (.ok document) => document.servers
  | _ => [.ofAddress fallback]

theorem servers_base (file : File) (fallback : String) (hasPublicIpv6 : Bool) :
    (Dns.Policy.base file fallback hasPublicIpv6).servers = baseServers file fallback := by
  rw [Dns.Policy.base, baseServers, File.usable?]
  cases file with
  | absent => rfl
  | directory => rfl
  | bytes contents =>
    simp only [File.load]
    cases (File.bytes contents).text? with
    | none => rfl
    | some s =>
      simp only [Option.map_some]
      cases Dns.Document.ofText s <;> rfl

def firstBlank? (servers : List Dns.Server) : Option Nat :=
  servers.findIdx? fun s => Text.trim s.address = ""

/-- **The DNS side** is refused for the first blank address among the servers that the policy begins
with; the name servers of the panel behind them never have one. -/
theorem checkDns_resolve (file : File) (fallback : String) (hasPublicIpv6 : Bool)
    (nodes : List Node) :
    checkDns (Dns.Policy.resolve file fallback hasPublicIpv6 nodes) =
      match firstBlank? (baseServers file fallback) with
      | some i => .error (.emptyServerAddress i)
      | none => .ok () := by
  have hblank : (fun s : Dns.Server => decide (Text.trim s.address = ""))
      = fun s => Text.isBlankText s.address := by
    funext s
    rw [Bool.eq_iff_iff, decide_eq_true_iff, Text.isBlankText_iff]
  have hpanel : (Dns.Policy.panelServers nodes).findIdx? (fun s => Text.isBlankText s.address)
      = none := by
    rw [List.findIdx?_eq_none_iff]
    intro s hs
    obtain ⟨entry, -, hserver⟩ := List.mem_filterMap.mp hs
    exact not_isBlankText_of_serverOfRoute? hserver
  have hcheck := checkEach_eq_findIdx? (fun s : Dns.Server => Text.isBlankText s.address)
    Rejection.emptyServerAddress (baseServers file fallback ++ Dns.Policy.panelServers nodes) 0
  rw [List.findIdx?_append, hpanel] at hcheck
  simp only [Option.map_none, Option.or_none, Nat.zero_add] at hcheck
  rw [firstBlank?, hblank, ← hcheck, ← servers_base file fallback hasPublicIpv6]
  rfl

end EgressPolicy.Engine
