import EgressPolicy.Proofs.Routing.BatchTheorems

/-!
What a node has of its neighbours.

All nodes of a compilation share one registry, and the ones before a node may have put more into it
than the node would find alone. `Options.contribution` are the rules that a node appends in its
turn, and the panel's part of a table is nothing but these (`rules_compile_eq_flatMap`). A route
reads of the registry only whether a tag is in it, so with more tags it keeps its rule, and it gets
one that it has not otherwise only where it refers to an outbound that it cannot build
(`ruleOfRoute_of_isWithin`). Hence a node has all rules among others that it has alone, in their
order (`contribution_among_neighbours`).
-/

namespace EgressPolicy

open Outbound (Registry Descriptor)
open Routing (Rule State Options)

/-- The seeded registry holds the builtin tags. -/
theorem Outbound.Registry.contains_seeded_iff (tag : String) :
    Registry.seeded.contains tag = true ↔ tag ∈ Registry.builtinTags := by
  rw [Registry.isIndexed_seeded tag, Registry.tags, Registry.targets_seeded]
  rfl

namespace Routing

/-! ## One route, two registries -/

/-- The outbound of a route is registered in its turn if it was before or if it can be built. -/
theorem isServed_register {r : Route} {d : Descriptor} (hout : r.outbound? = some d)
    (registry : Registry) :
    r.isServed (r.register registry) = (registry.contains d.tag || d.isSupported) := by
  have hcontains := Route.contains_register r registry d.tag
  simp only [Route.offers, hout, beq_self_eq_true, Bool.true_and] at hcontains
  simp only [Route.isServed, hout, hcontains]

/-- With more tags in the registry a route has the same rule, unless it has none with fewer and
refers to an outbound that is there now. -/
theorem ruleOfRoute_of_isWithin {a b : Registry} (hwithin : a.IsWithin b) (inbound : String)
    (r : Route) :
    (ruleOfRoute inbound b r).1 = (ruleOfRoute inbound a r).1 ∨
    (ruleOfRoute inbound a r).1 = none ∧ (ruleOfRoute inbound b r).1 = r.rule? inbound ∧
      ∃ d, r.outbound? = some d ∧ Text.lowerCase d.protocol ∉ Outbound.supportedProtocols ∧
        a.contains d.tag = false ∧ b.contains d.tag = true := by
  simp only [ruleOfRoute_eq]
  cases hout : r.outbound? with
  | none =>
    left
    simp only [Route.isServed, hout]
  | some d =>
    rw [isServed_register hout, isServed_register hout]
    cases hs : d.isSupported with
    | true =>
      left
      rw [Bool.or_true, Bool.or_true]
    | false =>
      have hprotocol : Text.lowerCase d.protocol ∉ Outbound.supportedProtocols := by
        simpa [Descriptor.isSupported] using hs
      cases ha : a.contains d.tag with
      | true =>
        left
        rw [hwithin d.tag ha]
      | false =>
        cases hb : b.contains d.tag with
        | false =>
          left
          rfl
        | true =>
          right
          exact ⟨rfl, rfl, d, rfl, hprotocol, ha, hb⟩

/-! ## One node in its turn -/

/-- The state in which a node reaches its route at a place, where the compilation reaches the node
in a state. -/
def State.upTo (s : State) (n : Node) (j : Nat) : State :=
  ((n.routes.take j).map fun r => (n.tag, r)).foldl State.add s

/-- The rule that a node appends for its route at a place. -/
def State.ruleAt (s : State) (n : Node) (j : Nat) : Option Rule :=
  n.routes[j]?.bind fun r => (ruleOfRoute n.tag (s.upTo n j).registry r).1

theorem toList_upTo_succ (s : State) (n : Node) (j : Nat) :
    (s.upTo n (j + 1)).rules.toList = (s.upTo n j).rules.toList ++ (s.ruleAt n j).toList := by
  unfold State.ruleAt
  cases hr : n.routes[j]? with
  | none =>
    have hlength := List.getElem?_eq_none_iff.mp hr
    have hsame : s.upTo n (j + 1) = s.upTo n j := by
      unfold State.upTo
      rw [List.take_of_length_le hlength, List.take_of_length_le (by omega)]
    rw [hsame, Option.bind_none, Option.toList_none, List.append_nil]
  | some r =>
    have hstep : s.upTo n (j + 1) = (s.upTo n j).add (n.tag, r) := by
      unfold State.upTo
      rw [List.take_add_one, hr, List.map_append, List.foldl_append]
      rfl
    rw [hstep, State.toList_add, State.registry_add, Option.bind_some, ruleOfRoute_eq]

theorem toList_upTo (s : State) (n : Node) : ∀ j : Nat,
    (s.upTo n j).rules.toList = s.rules.toList ++ (List.range j).filterMap (s.ruleAt n)
  | 0 => by simp [State.upTo]
  | j + 1 => by
    have hlast : [j].filterMap (s.ruleAt n) = (s.ruleAt n j).toList := by
      cases h : s.ruleAt n j <;> simp [h]
    rw [toList_upTo_succ, toList_upTo s n j, List.range_succ, List.filterMap_append, hlast,
      List.append_assoc]

theorem contains_upTo (s : State) (n : Node) (j : Nat) (tag : String) :
    (s.upTo n j).registry.contains tag =
      (s.registry.contains tag || (n.routes.take j).any fun r => r.offers tag) := by
  rw [State.upTo, State.contains_run, List.any_map]
  rfl

/-- A node that is reached with more tags has the same rule for a route, unless it has none with
fewer and the route refers to an outbound that is there now. -/
theorem ruleAt_of_isWithin {s t : State} (hwithin : s.registry.IsWithin t.registry) (n : Node)
    (j : Nat) :
    t.ruleAt n j = s.ruleAt n j ∨
    s.ruleAt n j = none ∧ ∃ r d, n.routes[j]? = some r ∧ t.ruleAt n j = r.rule? n.tag ∧
      r.outbound? = some d ∧ Text.lowerCase d.protocol ∉ Outbound.supportedProtocols ∧
      (s.upTo n j).registry.contains d.tag = false ∧
      (t.upTo n j).registry.contains d.tag = true := by
  have hupTo : (s.upTo n j).registry.IsWithin (t.upTo n j).registry := by
    intro tag htag
    rw [contains_upTo, Bool.or_eq_true] at htag ⊢
    exact htag.imp_left (hwithin tag)
  unfold State.ruleAt
  cases hr : n.routes[j]? with
  | none => exact Or.inl rfl
  | some r =>
    rcases ruleOfRoute_of_isWithin hupTo n.tag r with hsame | ⟨hnone, hrule, d, hd⟩
    · exact Or.inl hsame
    · exact Or.inr ⟨hnone, r, d, rfl, hrule, hd⟩

/-! ## All nodes in their turn -/

namespace Options

/-- The state in which a compilation reaches the node at a place. -/
def reached (o : Options) (nodes : List Node) (overrides : Override.Policy) (registry : Registry)
    (i : Nat) : State :=
  (Node.entries (nodes.take i)).foldl State.add (o.start overrides nodes registry)

/-- The rules that the node at a place appends in its turn, those of its routes in order. -/
def contribution (o : Options) (nodes : List Node) (overrides : Override.Policy)
    (registry : Registry) (i : Nat) : List Rule :=
  match nodes[i]? with
  | none => []
  | some n =>
    (List.range n.routes.length).filterMap ((o.reached nodes overrides registry i).ruleAt n)

end Options

section

variable (o : Options) (nodes : List Node) (overrides : Override.Policy) (registry : Registry)

theorem toList_reached_succ (i : Nat) :
    (o.reached nodes overrides registry (i + 1)).rules.toList =
      (o.reached nodes overrides registry i).rules.toList ++
        o.contribution nodes overrides registry i := by
  unfold Options.contribution
  cases hn : nodes[i]? with
  | none =>
    have hlength := List.getElem?_eq_none_iff.mp hn
    unfold Options.reached
    rw [List.take_of_length_le hlength, List.take_of_length_le (by omega), List.append_nil]
  | some n =>
    have hstep : o.reached nodes overrides registry (i + 1) =
        (o.reached nodes overrides registry i).upTo n n.routes.length := by
      unfold Options.reached State.upTo
      rw [List.take_add_one, hn, Node.entries_append, List.foldl_append, List.take_length]
      simp [Node.entries]
    rw [hstep, toList_upTo]

theorem toList_reached : ∀ i : Nat,
    (o.reached nodes overrides registry i).rules.toList =
      (o.start overrides nodes registry).rules.toList ++
        (List.range i).flatMap (o.contribution nodes overrides registry)
  | 0 => by simp [Options.reached, Node.entries]
  | i + 1 => by
    rw [toList_reached_succ, toList_reached i, List.range_succ, List.flatMap_append,
      List.flatMap_singleton, List.append_assoc]

/-- **The panel's part of a table** is what the nodes append, one after the other. -/
theorem rules_compile_eq_flatMap :
    (o.compile nodes overrides registry).1.rules =
      (o.blockRules overrides nodes).toList ++ [Rule.dnsHijack] ++
        (List.range nodes.length).flatMap (o.contribution nodes overrides registry) := by
  have hall := toList_reached o nodes overrides registry nodes.length
  have hstart : (o.start overrides nodes registry).rules.toList =
      (o.blockRules overrides nodes).toList ++ [Rule.dnsHijack] := RuleList.toList_append _ _
  rw [Options.reached, List.take_length, hstart] at hall
  rw [compile_eq_run]
  exact hall

theorem isWithin_reached (i : Nat) :
    registry.IsWithin (o.reached nodes overrides registry i).registry := by
  rw [Options.reached, State.registry_run]
  exact isWithin_registryAfter registry (Node.entries (nodes.take i))

end

theorem contribution_of_getElem? {o : Options} {nodes : List Node} {overrides : Override.Policy}
    {registry : Registry} {i : Nat} {n : Node} (h : nodes[i]? = some n) :
    o.contribution nodes overrides registry i =
      (List.range n.routes.length).filterMap ((o.reached nodes overrides registry i).ruleAt n) := by
  rw [Options.contribution, h]

/-- **Neighbours only help.** In a compilation from the seeded registry the panel's rules are what
the nodes append in turn. What a node appends among others has, in order, all that it appends alone,
and is the same where the engine can build every outbound that the node names or has it anyway.
Route by route it appends among others what it appends alone, save that a route without a rule alone
has its rule where it refers to an outbound that it cannot build and another node has registered. -/
theorem contribution_among_neighbours (o : Options) (overrides : Override.Policy)
    {nodes : List Node} {i : Nat} {n : Node} (h : nodes[i]? = some n) :
    let alone := o.reached [n] overrides Registry.seeded 0
    let among := o.reached nodes overrides Registry.seeded i
    (o.compile nodes overrides Registry.seeded).1.rules =
      (o.blockRules overrides nodes).toList ++ [Rule.dnsHijack] ++
        (List.range nodes.length).flatMap (o.contribution nodes overrides Registry.seeded) ∧
    (o.contribution [n] overrides Registry.seeded 0).Sublist
      (o.contribution nodes overrides Registry.seeded i) ∧
    ((∀ r ∈ n.routes, ∀ d, r.outbound? = some d →
        Text.lowerCase d.protocol ∈ Outbound.supportedProtocols ∨ d.tag ∈ Registry.builtinTags) →
      o.contribution nodes overrides Registry.seeded i =
        o.contribution [n] overrides Registry.seeded 0) ∧
    ∀ j, among.ruleAt n j = alone.ruleAt n j ∨
      alone.ruleAt n j = none ∧ ∃ r d, n.routes[j]? = some r ∧
        among.ruleAt n j = r.rule? n.tag ∧ r.outbound? = some d ∧
        Text.lowerCase d.protocol ∉ Outbound.supportedProtocols ∧
        (alone.upTo n j).registry.contains d.tag = false ∧
        (among.upTo n j).registry.contains d.tag = true := by
  intro alone among
  have hwithin : alone.registry.IsWithin among.registry :=
    isWithin_reached o nodes overrides Registry.seeded i
  have hroutes := ruleAt_of_isWithin hwithin n
  have halone : o.contribution [n] overrides Registry.seeded 0 =
      (List.range n.routes.length).filterMap (alone.ruleAt n) := contribution_of_getElem? rfl
  have hamong : o.contribution nodes overrides Registry.seeded i =
      (List.range n.routes.length).filterMap (among.ruleAt n) := contribution_of_getElem? h
  rw [halone, hamong]
  refine ⟨rules_compile_eq_flatMap o nodes overrides Registry.seeded, ?_, ?_, hroutes⟩
  · refine sublist_filterMap fun j _ => ?_
    rcases hroutes j with hsame | ⟨hnone, -⟩
    · exact Or.inr hsame.symm
    · exact Or.inl hnone
  · intro hown
    refine List.filterMap_congr fun j _ => ?_
    rcases hroutes j with hsame | ⟨-, r, d, hr, -, hout, hprotocol, hunknown, -⟩
    · exact hsame
    · -- Such a route is there neither by its protocol nor as a builtin outbound.
      rcases hown r (List.mem_of_getElem? hr) d hout with hsupported | hbuiltin
      · exact absurd hsupported hprotocol
      · have hseeded : alone.registry.contains d.tag = true :=
          (Registry.contains_seeded_iff d.tag).mpr hbuiltin
        rw [contains_upTo, hseeded, Bool.true_or] at hunknown
        cases hunknown

/-- The first node brings an outbound, the second refers to it, and the third needs nobody. -/
def neighbourhood : List Node :=
  [⟨1, "a", [⟨none, "default_out", [], some "\x7b\"tag\":\"us\",\"protocol\":\"vmess\"\x7d"⟩]⟩,
   ⟨2, "b", [⟨none, "route", ["x.example"], some "\x7b\"tag\":\"us\"\x7d"⟩,
     ⟨none, "block", ["ads.example"], none⟩]⟩,
   ⟨3, "c", [⟨none, "default_out", [], some "\x7b\"tag\":\"direct\"\x7d"⟩]⟩]

/-- The second node has one rule alone and two among others, and the third has the same one. -/
theorem contribution_among_neighbourhood :
    let o : Options := {}
    o.contribution neighbourhood .default Registry.seeded 1 =
      [.ofMatcher "b" "us" (.domains ["x.example"]),
        .ofMatcher "b" "block" (.domains ["ads.example"])] ∧
    [Rule.ofMatcher "b" "block" (.domains ["ads.example"])].Sublist
      (o.contribution neighbourhood .default Registry.seeded 1) ∧
    o.contribution neighbourhood .default Registry.seeded 2 = [.catchAll "c" "direct"] := by
  intro o
  have hb : neighbourhood[1]? = some ⟨2, "b", [⟨none, "route", ["x.example"],
      some "\x7b\"tag\":\"us\"\x7d"⟩, ⟨none, "block", ["ads.example"], none⟩]⟩ := rfl
  have hc : neighbourhood[2]? = some ⟨3, "c", [⟨none, "default_out", [],
      some "\x7b\"tag\":\"direct\"\x7d"⟩]⟩ := rfl
  obtain ⟨-, hsublist, -, -⟩ := contribution_among_neighbours o .default hb
  obtain ⟨-, -, hequal, -⟩ := contribution_among_neighbours o .default hc
  have hdirect : Route.outbound? ⟨none, "default_out", [],
      some "\x7b\"tag\":\"direct\"\x7d"⟩ = some ⟨"direct", "", []⟩ := by decide +kernel
  refine ⟨by decide +kernel, ?_, ?_⟩
  · have halone : o.contribution [⟨2, "b", [⟨none, "route", ["x.example"],
        some "\x7b\"tag\":\"us\"\x7d"⟩, ⟨none, "block", ["ads.example"], none⟩]⟩] .default
        Registry.seeded 0 = [.ofMatcher "b" "block" (.domains ["ads.example"])] := by
      decide +kernel
    rw [← halone]
    exact hsublist
  · rw [hequal]
    · decide +kernel
    · intro r hr d hout
      obtain rfl := List.mem_singleton.mp hr
      rw [hdirect] at hout
      obtain rfl := Option.some.inj hout
      exact Or.inr (by decide)

end Routing

end EgressPolicy
