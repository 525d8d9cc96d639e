import EgressPolicy.Proofs.Engine.CompileTheorems

/-!
Faults stay where they are.

A route that a compilation drops leaves no trace: neither the rules nor the registry nor the name
servers change where it is taken (`add_of_isDropped`, `serverOfRoute?_of_isDropped`). So any set of
dropped routes can be left out of the nodes without changing the result (`compile_withoutRoutes`).
Whether a route is dropped can depend on the routes before it, and is judged in the run over all
nodes.
-/

namespace EgressPolicy

open Outbound (Registry)
open Routing (State)

/-! ## Places -/

/-- The nodes without the routes at some places. A place is the position of a node and the position
of a route in it. -/
def Node.withoutRoutes (nodes : List Node) (deleted : Nat → Nat → Bool) : List Node :=
  nodes.mapIdx fun i n =>
    { n with routes := (n.routes.zipIdx.filter fun p => !deleted i p.2).map Prod.fst }

/-- The nodes up to a place, the last one with the routes before that place. -/
def Node.before (nodes : List Node) (i j : Nat) : List Node :=
  nodes.take i ++ (nodes[i]?.map fun n => { n with routes := n.routes.take j }).toList

namespace Node

theorem entries_cons (n : Node) (rest : List Node) :
    entries (n :: rest) = (n.routes.map fun r => (n.tag, r)) ++ entries rest := by
  rw [entries, List.flatMap_cons]
  rfl

/-- Folding over the routes of nodes takes one node after the other. -/
theorem foldl_entries_cons {σ : Type} (f : σ → String × Route → σ) (s : σ) (n : Node)
    (rest : List Node) :
    (entries (n :: rest)).foldl f s =
      (entries rest).foldl f (n.routes.foldl (fun s r => f s (n.tag, r)) s) := by
  rw [entries_cons, List.foldl_append, List.foldl_map]

theorem entries_before_cons_zero (n : Node) (rest : List Node) (j : Nat) :
    entries (before (n :: rest) 0 j) = (n.routes.take j).map fun r => (n.tag, r) := by
  simp [before, entries]

theorem entries_before_cons_succ (n : Node) (rest : List Node) (i j : Nat) :
    entries (before (n :: rest) (i + 1) j) =
      (n.routes.map fun r => (n.tag, r)) ++ entries (before rest i j) := by
  rw [← entries_cons]
  simp [before]

theorem withoutRoutes_cons (n : Node) (rest : List Node) (deleted : Nat → Nat → Bool) :
    withoutRoutes (n :: rest) deleted =
      { n with routes := (n.routes.zipIdx.filter fun p => !deleted 0 p.2).map Prod.fst } ::
        withoutRoutes rest fun i => deleted (i + 1) := by
  rw [withoutRoutes, List.mapIdx_cons]
  rfl

end Node

/-! ## Leaving out what changes nothing -/

/-- A fold can leave out any members that do not change it where they are taken. -/
theorem foldl_filter_zipIdx {σ α : Type} (f : σ → α → σ) (deleted : Nat → Bool) :
    ∀ (l : List α) (k : Nat) (s : σ),
      (∀ j a, deleted (k + j) = true → l[j]? = some a →
        f ((l.take j).foldl f s) a = (l.take j).foldl f s) →
      (((l.zipIdx k).filter fun p => !deleted p.2).map Prod.fst).foldl f s = l.foldl f s
  | [], _, _, _ => rfl
  | a :: rest, k, s, h => by
    have hrest : ∀ j b, deleted (k + 1 + j) = true → rest[j]? = some b →
        f ((rest.take j).foldl f (f s a)) b = (rest.take j).foldl f (f s a) := by
      intro j b hd hb
      have hplace : k + 1 + j = k + (j + 1) := by omega
      exact h (j + 1) b (hplace ▸ hd) (by simpa using hb)
    have ih := foldl_filter_zipIdx f deleted rest (k + 1) (f s a) hrest
    rw [List.zipIdx_cons, List.filter_cons]
    cases hd : deleted k with
    | false => exact ih
    | true =>
      have hsame : f s a = s := h 0 a hd rfl
      rw [hsame] at ih
      simpa [hsame] using ih

/-- The same for a fold over the routes of nodes. -/
theorem foldl_entries_withoutRoutes {σ : Type} (f : σ → String × Route → σ) :
    ∀ (nodes : List Node) (deleted : Nat → Nat → Bool) (s : σ),
      (∀ i j n r, deleted i j = true → nodes[i]? = some n → n.routes[j]? = some r →
        f ((Node.entries (Node.before nodes i j)).foldl f s) (n.tag, r) =
          (Node.entries (Node.before nodes i j)).foldl f s) →
      (Node.entries (Node.withoutRoutes nodes deleted)).foldl f s =
        (Node.entries nodes).foldl f s
  | [], _, _, _ => rfl
  | n :: rest, deleted, s, h => by
    have hfirst : ((n.routes.zipIdx.filter fun p => !deleted 0 p.2).map Prod.fst).foldl
          (fun s r => f s (n.tag, r)) s
        = n.routes.foldl (fun s r => f s (n.tag, r)) s := by
      refine foldl_filter_zipIdx _ (deleted 0) n.routes 0 s fun j r hd hr => ?_
      have hplace := h 0 j n r (by simpa using hd) rfl hr
      rwa [Node.entries_before_cons_zero, List.foldl_map] at hplace
    have hrest := foldl_entries_withoutRoutes f rest (fun i => deleted (i + 1))
      (n.routes.foldl (fun s r => f s (n.tag, r)) s) fun i j m r hd hm hr => by
        have hplace := h (i + 1) j m r hd (by simpa using hm) hr
        rwa [Node.entries_before_cons_succ, List.foldl_append, List.foldl_map] at hplace
    rw [Node.withoutRoutes_cons, Node.foldl_entries_cons, Node.foldl_entries_cons]
    show (Node.entries (Node.withoutRoutes rest fun i => deleted (i + 1))).foldl f
      (((n.routes.zipIdx.filter fun p => !deleted 0 p.2).map Prod.fst).foldl
        (fun s r => f s (n.tag, r)) s) = _
    rw [hfirst, hrest]

/-! ## Dropped routes -/

/-- Whether a compilation drops a route that it reaches with a registry: the route is refused, its
action is not known, or the outbound that it names cannot be registered. -/
def Route.isDropped (r : Route) (registry : Registry) : Bool :=
  match Directive.ofRoute r with
  | .error _ | .ok none => true
  | .ok (some d) =>
    match d.outbound? with
    | none => false
    | some outbound => !(registry.register outbound).1.isOk

/-- A dropped route has no rule and registers nothing. -/
theorem ruleOfRoute_of_isDropped {r : Route} {registry : Registry} (inbound : String)
    (h : r.isDropped registry = true) :
    Routing.ruleOfRoute inbound registry r = (none, registry) := by
  rw [Route.isDropped] at h
  rw [Routing.ruleOfRoute_eq, Route.isServed, Route.register, Route.rule?, Route.outbound?,
    Route.directive?]
  cases hof : Directive.ofRoute r with
  | error e => simp
  | ok accepted =>
    cases accepted with
    | none => simp
    | some d =>
      cases hout : d.outbound? with
      | none => simp [hof, hout] at h
      | some outbound =>
        simp only [hof, hout] at h
        rcases Registry.register_cases registry outbound with ⟨_, hr⟩ | ⟨_, _, hr⟩ | ⟨hc, _, e, hr⟩
        · rw [hr] at h
          cases h
        · rw [hr] at h
          cases h
        · simp [hout, hr, hc]

/-- A dropped route changes neither the rules nor the registry. -/
theorem add_of_isDropped {s : State} {entry : String × Route}
    (h : entry.2.isDropped s.registry = true) : s.add entry = s := by
  rw [State.add, ruleOfRoute_of_isDropped entry.1 h]

/-- A dropped route adds no name server. -/
theorem serverOfRoute?_of_isDropped {r : Route} {registry : Registry}
    (h : r.isDropped registry = true) : Dns.Policy.serverOfRoute? r = none := by
  rw [Route.isDropped] at h
  rw [Dns.Policy.serverOfRoute?]
  split
  · rename_i hof
    simp [hof, Directive.outbound?] at h
  · rfl

/-- The name servers of the panel, as a fold. -/
theorem panelServers_eq_foldl (nodes : List Node) :
    Dns.Policy.panelServers nodes = (Node.entries nodes).foldl
      (fun servers entry => servers ++ (Dns.Policy.serverOfRoute? entry.2).toList) [] := by
  have hrun : ∀ (entries : List (String × Route)) (servers : List Dns.Server),
      entries.foldl (fun servers e => servers ++ (Dns.Policy.serverOfRoute? e.2).toList) servers =
        servers ++ entries.filterMap fun e => Dns.Policy.serverOfRoute? e.2 := by
    intro entries
    induction entries with
    | nil => simp
    | cons e rest ih =>
      intro servers
      rw [List.foldl_cons, ih]
      cases hs : Dns.Policy.serverOfRoute? e.2 <;> simp [hs]
  rw [hrun, List.nil_append]
  rfl

/-- Which nodes are blocked depends on their numbers and tags alone. -/
theorem blockRules_withoutRoutes (o : Routing.Options) (overrides : Override.Policy)
    (nodes : List Node) (deleted : Nat → Nat → Bool) :
    o.blockRules overrides (Node.withoutRoutes nodes deleted) = o.blockRules overrides nodes := by
  rw [Routing.Options.blockRules, Routing.Options.blockRules]
  generalize Routing.RuleList.empty = rules
  induction nodes generalizing deleted rules with
  | nil => rfl
  | cons n rest ih =>
    rw [Node.withoutRoutes_cons, List.foldl_cons, List.foldl_cons, ih]
    rfl

namespace Engine

/-- The registry with which a compilation reaches a place. -/
def registryAt (settings : Settings) (host : Host) (nodes : List Node) (i j : Nat) : Registry :=
  ((Node.entries (Node.before nodes i j)).foldl State.add
    (settings.routingOptions.start (Override.Policy.ofFile host.routeFile) nodes
      Registry.seeded)).registry

/-- **Fault isolation.** Leaving any of the dropped routes out of the nodes does not change the
result of a compilation, be it a configuration or a rejection. -/
theorem compile_withoutRoutes (settings : Settings) (host : Host) (nodes : List Node)
    (deleted : Nat → Nat → Bool)
    (h : ∀ i j n r, deleted i j = true → nodes[i]? = some n → n.routes[j]? = some r →
      r.isDropped (registryAt settings host nodes i j) = true) :
    compile settings host (Node.withoutRoutes nodes deleted) = compile settings host nodes := by
  have hservers : Dns.Policy.panelServers (Node.withoutRoutes nodes deleted) =
      Dns.Policy.panelServers nodes := by
    rw [panelServers_eq_foldl, panelServers_eq_foldl]
    refine foldl_entries_withoutRoutes _ nodes deleted [] fun i j n r hd hn hr => ?_
    rw [serverOfRoute?_of_isDropped (h i j n r hd hn hr), Option.toList_none, List.append_nil]
  have hrouting : settings.routingOptions.compile (Node.withoutRoutes nodes deleted)
        (Override.Policy.ofFile host.routeFile) Registry.seeded =
      settings.routingOptions.compile nodes (Override.Policy.ofFile host.routeFile)
        Registry.seeded := by
    rw [Routing.compile_eq_run, Routing.compile_eq_run, Routing.Options.start,
      blockRules_withoutRoutes, ← Routing.Options.start]
    rw [foldl_entries_withoutRoutes State.add nodes deleted _ fun i j n r hd hn hr =>
      add_of_isDropped (h i j n r hd hn hr)]
  rw [compile_eq, compile_eq, assembled, assembled, Dns.Policy.resolve, Dns.Policy.resolve,
    hservers, hrouting]

/-- The places of the three routes of `twoNodes` that are dropped. -/
def droppedPlaces (i j : Nat) : Bool :=
  [(0, 0), (0, 2), (1, 0)].contains (i, j)

/-- The route that stays in the first node registers the outbound that the route before it missed
and that the route in the second node refers to. -/
theorem compile_withoutRoutes_twoNodes :
    Node.withoutRoutes twoNodes droppedPlaces =
      [⟨3, "a", [⟨none, "route", ["x.example"],
          some "\x7b\"tag\":\"us\",\"protocol\":\"VMess\"\x7d"⟩]⟩,
       ⟨7, "b", [⟨none, "default_out", [], some "\x7b\"tag\":\"us\"\x7d"⟩]⟩] ∧
    compile {} bareHost (Node.withoutRoutes twoNodes droppedPlaces) =
      compile {} bareHost twoNodes := by
  refine ⟨by decide, compile_withoutRoutes {} bareHost twoNodes droppedPlaces ?_⟩
  intro i j n r hd hn hr
  simp only [droppedPlaces, List.contains_eq_mem, List.mem_cons, Prod.mk.injEq, List.not_mem_nil,
    or_false, decide_eq_true_eq] at hd
  rcases hd with ⟨rfl, rfl⟩ | ⟨rfl, rfl⟩ | ⟨rfl, rfl⟩
  all_goals
    obtain rfl := Option.some.inj hn
    obtain rfl := Option.some.inj hr
    decide +kernel

end Engine

end EgressPolicy
