import EgressPolicy.Proofs.Directive.PortTheorems
import EgressPolicy.Proofs.Routing.NeighbourTheorems

/-!
What the rules of a table select.

An empty or a blank matcher would select everything or nothing. A route is only accepted with
patterns that are trimmed and not empty (`isTrimmed_of_requirePatterns`) or with a port list in
which something stands between the commas (`ne_nil_of_requirePorts`), so the rule that it asks for
is selective (`isSelective_of_rule?`), and that goes over to the tables: `rules_compile_selective`
says of every rule which inbound it is for and what it selects there.
-/

namespace EgressPolicy

open Outbound (Registry)
open Routing (Rule Matcher State Options)

/-! ## Matchers that are filled -/

/-- A matcher of the panel that selects something: patterns, none of which is blank or has blanks
around it, or a port list without an empty item. -/
def Routing.Matcher.IsFilled : Matcher → Prop
  | .domains patterns | .ips patterns | .protocols patterns =>
    patterns ≠ [] ∧ ∀ p ∈ patterns, Text.IsTrimmed p
  | .ports list => list ≠ "" ∧ ∀ item ∈ list.toList.splitOn ',', item ≠ []
  | .sources _ => False

/-- A rule selects by a matcher that is filled, or takes both transports as they come. -/
def Routing.Rule.IsSelective (rule : Rule) : Prop :=
  (∃ m, rule.matcher = some m ∧ m.IsFilled ∧ rule.network = none) ∨
    rule.matcher = none ∧ rule.network = some "tcp,udp"

namespace Route

/-- Patterns that are accepted are there, and each is trimmed. -/
theorem isTrimmed_of_requirePatterns {r : Route} {a : Action} {patterns : List String}
    (h : r.requirePatterns a = .ok patterns) :
    patterns ≠ [] ∧ ∀ p ∈ patterns, Text.IsTrimmed p := by
  rw [requirePatterns] at h
  split at h
  · cases h
  · rename_i hne
    obtain rfl := Except.ok.inj h
    refine ⟨hne, fun p hp => ?_⟩
    obtain ⟨hmap, hkept⟩ := List.mem_filter.mp hp
    obtain ⟨raw, -, rfl⟩ := List.mem_map.mp hmap
    exact Text.isTrimmed_trim (of_decide_eq_true hkept)

/-- A port list that is accepted has items, and none of them is empty. -/
theorem ne_nil_of_requirePorts {r : Route} {ports : String} (h : r.requirePorts = .ok ports) :
    ports ≠ "" ∧ ∀ item ∈ ports.toList.splitOn ',', item ≠ [] := by
  rw [requirePorts_eq, Ports.checked_eq_ok_iff] at h
  obtain ⟨hne, -, rfl⟩ := h
  have hitems := Ports.splitOn_text hne
  have hfull : ∀ item ∈ (Ports.text (Ports.items r.patterns)).toList.splitOn ',', item ≠ [] := by
    rw [hitems]
    exact fun item hitem => (Ports.item_of_mem_items hitem).1
  refine ⟨fun hempty => ?_, hfull⟩
  rw [hempty] at hfull
  exact hfull [] (by decide) rfl

/-- **The rule of a route** is for the inbound of the route and selects something there. Only the
rule of a default has no matcher. -/
theorem isSelective_of_rule? {r : Route} {inbound : String} {rule : Rule}
    (h : r.rule? inbound = some rule) :
    rule.inboundTags = [inbound] ∧ rule.IsSelective ∧
      (rule.matcher = none ↔ r.action = "default_out") := by
  obtain ⟨d, hd, hrule⟩ := Option.bind_eq_some_iff.mp h
  obtain ⟨haction, hread⟩ := directive?_eq_some_iff.mp hd
  rw [haction]
  cases d with
  | dns _ _ => cases hrule
  | block _ | blockIp _ | protocol _ =>
    obtain rfl := Option.some.inj hrule
    exact ⟨rfl, Or.inl ⟨_, rfl, isTrimmed_of_requirePatterns hread, rfl⟩,
      by simp [Directive.action, Action.name]⟩
  | blockPort _ =>
    obtain rfl := Option.some.inj hrule
    exact ⟨rfl, Or.inl ⟨_, rfl, ne_nil_of_requirePorts hread, rfl⟩,
      by simp [Directive.action, Action.name]⟩
  | route _ _ | routeIp _ _ =>
    obtain rfl := Option.some.inj hrule
    exact ⟨rfl, Or.inl ⟨_, rfl, isTrimmed_of_requirePatterns hread.1, rfl⟩,
      by simp [Directive.action, Action.name]⟩
  | defaultOut _ =>
    obtain rfl := Option.some.inj hrule
    exact ⟨rfl, Or.inr ⟨rfl, rfl⟩, by simp [Directive.action, Action.name]⟩

end Route

namespace Routing

/-! ## The rules of a table -/

section

variable {o : Options} {nodes : List Node} {overrides : Override.Policy} {registry : Registry}

/-- A rule that a node appends is the rule of one of its routes. -/
theorem exists_route_of_mem_contribution {i : Nat} {n : Node} (hn : nodes[i]? = some n)
    {rule : Rule} (h : rule ∈ o.contribution nodes overrides registry i) :
    ∃ r ∈ n.routes, r.rule? n.tag = some rule := by
  rw [contribution_of_getElem? hn, List.mem_filterMap] at h
  obtain ⟨j, -, hrule⟩ := h
  obtain ⟨r, hr, hrule⟩ := Option.bind_eq_some_iff.mp hrule
  rw [ruleOfRoute_eq] at hrule
  refine ⟨r, List.mem_of_getElem? hr, ?_⟩
  dsimp only at hrule
  split at hrule
  · exact hrule
  · cases hrule

/-- **What a node appends** is for the inbound of the node and selects something of it. -/
theorem isSelective_of_mem_contribution {i : Nat} {n : Node} (hn : nodes[i]? = some n) {rule : Rule}
    (h : rule ∈ o.contribution nodes overrides registry i) :
    rule.inboundTags = [n.tag] ∧ rule.IsSelective ∧
      ∃ r ∈ n.routes, r.rule? n.tag = some rule ∧
        (rule.matcher = none ↔ r.action = "default_out") := by
  obtain ⟨r, hr, hasked⟩ := exists_route_of_mem_contribution hn h
  obtain ⟨hinbound, hselective, hdefault⟩ := Route.isSelective_of_rule? hasked
  exact ⟨hinbound, hselective, r, hr, hasked, hdefault⟩

theorem isSelective_of_mem_flatMap {rule : Rule}
    (h : rule ∈ (List.range nodes.length).flatMap (o.contribution nodes overrides registry)) :
    (∃ tag, rule.inboundTags = [tag]) ∧ rule.IsSelective := by
  obtain ⟨i, hi, hrule⟩ := List.mem_flatMap.mp h
  have hn := List.getElem?_eq_getElem (List.mem_range.mp hi)
  obtain ⟨hinbound, hselective, -⟩ := isSelective_of_mem_contribution hn hrule
  exact ⟨⟨_, hinbound⟩, hselective⟩

end

/-- A filled matcher does not look at the source. -/
theorem Rule.IsSelective.ne_sources {rule : Rule} (h : rule.IsSelective)
    (selectors : List String) : rule.matcher ≠ some (.sources selectors) := by
  intro heq
  rcases h with ⟨m, hm, hfilled, -⟩ | ⟨hnone, -⟩
  · obtain rfl := Option.some.inj (hm.symm.trans heq)
    exact hfilled
  · rw [hnone] at heq
    cases heq

theorem filter_inboundTags_eq_nil {rules : List Rule}
    (h : ∀ rule ∈ rules, ∃ tag, rule.inboundTags = [tag]) :
    rules.filter (fun rule => rule.inboundTags = []) = [] := by
  rw [List.filter_eq_nil_iff]
  intro rule hrule
  obtain ⟨tag, htag⟩ := h rule hrule
  simp [htag]

/-- **What rules select.** A table has the block rules of the nodes that the overrides name, the
rule for name queries and what the nodes append in their turn. Of all of them the rule for name
queries alone is for every inbound. A block rule is for the inbound of its node and the source to
reject, and there are no sources behind the block rules. What a node appends is for the inbound of
the node, and selects something of it: only the rule of a default takes everything. -/
theorem rules_compile_selective (o : Options) (nodes : List Node) (overrides : Override.Policy)
    (registry : Registry) :
    let blocked := nodes.filter (overrides.blocks · o.legacy)
    let head := (blocked.map fun n => Rule.blockSource n.tag o.source).reverse
    let panel := (List.range nodes.length).flatMap (o.contribution nodes overrides registry)
    let rules := (o.compile nodes overrides registry).1.rules
    rules = head ++ [Rule.dnsHijack] ++ panel ∧
    rules.filter (fun rule => rule.inboundTags = []) = [Rule.dnsHijack] ∧
    (∀ rule ∈ head, ∃ n ∈ blocked, rule.inboundTags = [n.tag] ∧
      rule.matcher = some (.sources [o.source])) ∧
    (∀ rule ∈ [Rule.dnsHijack] ++ panel, ∀ selectors, rule.matcher ≠ some (.sources selectors)) ∧
    ∀ i n, nodes[i]? = some n → ∀ rule ∈ o.contribution nodes overrides registry i,
      rule.inboundTags = [n.tag] ∧ rule.IsSelective ∧
        ∃ r ∈ n.routes, r.rule? n.tag = some rule ∧
          (rule.matcher = none ↔ r.action = "default_out") := by
  intro blocked head panel rules
  have hrules : rules = head ++ [Rule.dnsHijack] ++ panel := by
    have hall := rules_compile_eq_flatMap o nodes overrides registry
    rwa [toList_blockRules] at hall
  have hhead : ∀ rule ∈ head, ∃ n ∈ blocked, rule.inboundTags = [n.tag] ∧
      rule.matcher = some (.sources [o.source]) := by
    intro rule hrule
    obtain ⟨n, hn, rfl⟩ := List.mem_map.mp (List.mem_reverse.mp hrule)
    exact ⟨n, hn, rfl, rfl⟩
  refine ⟨hrules, ?_, hhead, ?_, fun i n hn rule => isSelective_of_mem_contribution hn⟩
  · have hheadNone := filter_inboundTags_eq_nil fun rule hrule => by
      obtain ⟨n, -, hinbound, -⟩ := hhead rule hrule
      exact ⟨n.tag, hinbound⟩
    have hpanelNone := filter_inboundTags_eq_nil fun rule (hrule : rule ∈ panel) =>
      (isSelective_of_mem_flatMap hrule).1
    rw [hrules, List.filter_append, List.filter_append, hheadNone, hpanelNone]
    rfl
  · intro rule hrule
    rcases List.mem_append.mp hrule with hdns | hrule
    · obtain rfl := List.mem_singleton.mp hdns
      intro selectors heq
      cases heq
    · exact (isSelective_of_mem_flatMap hrule).2.ne_sources

/-- A node with blanks of many kinds around its patterns, and with a blank pattern. -/
def padded : List Node :=
  [⟨1, "a_1", [⟨none, "block", ["\u3000", "\u00a0a.example\u2003"], none⟩,
     ⟨none, "block_port", [" 80,, 443"], none⟩]⟩]

theorem rules_compile_selective_padded :
    let o : Options := { legacy := true }
    let overrides : Override.Policy := { Override.Policy.default with legacySuffixes := ["_1"] }
    let rules := (o.compile padded overrides Registry.seeded).1.rules
    rules = [.blockSource "a_1" o.source, .dnsHijack,
      .ofMatcher "a_1" "block" (.domains ["a.example"]),
      .ofMatcher "a_1" "block" (.ports "80,443")] ∧
    rules.filter (fun rule => rule.inboundTags = []) = [Rule.dnsHijack] ∧
    (Rule.ofMatcher "a_1" "block" (.domains ["a.example"])).IsSelective := by
  intro o overrides rules
  obtain ⟨-, hdns, -, -, hnode⟩ := rules_compile_selective o padded overrides Registry.seeded
  have hmem : Rule.ofMatcher "a_1" "block" (.domains ["a.example"]) ∈
      o.contribution padded overrides Registry.seeded 0 := by decide +kernel
  exact ⟨by decide +kernel, hdns, (hnode 0 _ rfl _ hmem).2.1⟩

end Routing

end EgressPolicy
