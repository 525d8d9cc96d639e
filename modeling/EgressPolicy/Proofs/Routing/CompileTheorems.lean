import EgressPolicy.Proofs.Directive.AcceptedTheorems
import EgressPolicy.Proofs.Routing.RuleListTheorems
import EgressPolicy.Routing.Compile
import Mathlib.Data.List.Induction

/-!
The routing table, without the registry that grows while it is compiled.

One step takes one route. It registers the outbound of the route, if that names one, and appends the
rule of the route if the outbound is registered then (`toList_add`, `registry_add`). A tag is
registered after a run exactly when it was before or one of the routes offers it (`contains_run`),
and so whether a route has its rule is a matter of the routes up to it: that is `panelRules`, and
`compile_table` says that the table consists of the block rules, the rule for name queries and
these.
-/

namespace EgressPolicy

open Outbound (Registry)
open Routing (Rule State)

/-! ## What a route stands for -/

/-- The rule that a directive of an inbound asks for. A name server asks for none. -/
def Directive.rule? (inbound : String) : Directive → Option Rule
  | .dns _ _ => none
  | .block domains => some ⟨[inbound], "block", some (.domains domains), none⟩
  | .blockIp ips => some ⟨[inbound], "block", some (.ips ips), none⟩
  | .blockPort ports => some ⟨[inbound], "block", some (.ports ports), none⟩
  | .protocol names => some ⟨[inbound], "block", some (.protocols names), none⟩
  | .route domains outbound => some ⟨[inbound], outbound.tag, some (.domains domains), none⟩
  | .routeIp ips outbound => some ⟨[inbound], outbound.tag, some (.ips ips), none⟩
  | .defaultOut outbound => some ⟨[inbound], outbound.tag, none, some "tcp,udp"⟩

namespace Route

/-- The rule that a route of an inbound asks for, if it is accepted. -/
def rule? (inbound : String) (r : Route) : Option Rule :=
  r.directive?.bind (Directive.rule? inbound)

/-- The registry after the outbound of a route, if it names one. -/
def register (r : Route) (registry : Registry) : Registry :=
  match r.outbound? with
  | none => registry
  | some d => (registry.register d).2

/-- Whether the outbound of a route, if it names one, is registered. -/
def isServed (r : Route) (registry : Registry) : Bool :=
  match r.outbound? with
  | none => true
  | some d => registry.contains d.tag

/-- Whether a route describes an outbound with a tag that the engine can build. -/
def offers (r : Route) (tag : String) : Bool :=
  match r.outbound? with
  | none => false
  | some d => d.tag == tag && d.isSupported

/-- Whether the outbound of a route, if it names one, was registered at the start or is offered by
one of the routes of a run. -/
def isAvailable (r : Route) (start : Registry) (run : List (String × Route)) : Bool :=
  match r.outbound? with
  | none => true
  | some d => start.contains d.tag || run.any fun entry => entry.2.offers d.tag

/-- Registering adds the tag that the route offers. A route that is accepted has a tag that is not
blank, so its protocol alone decides. -/
theorem contains_register (r : Route) (registry : Registry) (tag : String) :
    (r.register registry).contains tag = (registry.contains tag || r.offers tag) := by
  rw [register, offers]
  cases hout : r.outbound? with
  | none => simp
  | some d =>
    have hnamed := isNamed_of_outbound? hout
    simp only [Registry.contains_register, hnamed, Bool.true_and]

end Route

namespace Routing

/-! ## One step -/

/-- A rule that waits for an outbound is made exactly when the tag is registered afterwards. -/
theorem ruleFor_eq (registry : Registry) (d : Outbound.Descriptor) (rule : String → Rule) :
    ruleFor registry d rule =
      (if (registry.register d).2.contains d.tag then some (rule d.tag) else none,
        (registry.register d).2) := by
  rw [ruleFor]
  cases hr : registry.register d with
  | mk answer after =>
    have hok := Registry.register_ok_iff registry d
    simp only [hr] at hok
    cases answer with
    | ok tag =>
      obtain ⟨rfl, hc⟩ := (hok tag).mp rfl
      simp [hc]
    | error e =>
      have hc : ¬ after.contains d.tag = true := by
        intro hc
        cases (hok d.tag).mpr ⟨rfl, hc⟩
      simp [hc]

/-- The rule of a route and the registry after it. -/
theorem ruleOfRoute_eq (inbound : String) (registry : Registry) (r : Route) :
    ruleOfRoute inbound registry r =
      (if r.isServed (r.register registry) then r.rule? inbound else none,
        r.register registry) := by
  rw [ruleOfRoute, Route.isServed, Route.register, Route.rule?, Route.outbound?, Route.directive?]
  cases Directive.ofRoute r with
  | error e => simp
  | ok accepted =>
    cases accepted with
    | none => simp
    | some d =>
      cases d with
      | dns _ _ | block _ | blockIp _ | blockPort _ | protocol _ => rfl
      | route domains outbound | routeIp ips outbound | defaultOut outbound =>
        simp only [ruleOfDirective, ruleFor_eq, Option.bind_some, Directive.outbound?]
        rfl

namespace State

theorem registry_add (s : State) (entry : String × Route) :
    (s.add entry).registry = entry.2.register s.registry := by
  rw [add, ruleOfRoute_eq]
  split <;> simp_all

/-- **One step.** A route appends its rule exactly when the outbound that it names, if any, is
registered after the step. -/
theorem toList_add (s : State) (entry : String × Route) :
    (s.add entry).rules.toList = s.rules.toList ++
      (if entry.2.isServed (s.add entry).registry then entry.2.rule? entry.1 else none).toList := by
  rw [registry_add, add, ruleOfRoute_eq]
  split
  · rename_i rule registry h
    simp only [Prod.mk.injEq] at h
    rw [h.1, RuleList.toList_append, Option.toList_some]
  · rename_i registry h
    simp only [Prod.mk.injEq] at h
    rw [h.1, Option.toList_none, List.append_nil]

/-! ## A run -/

/-- **The registered tags of a run** are those of the start and those that its routes offer. -/
theorem contains_run : ∀ (entries : List (String × Route)) (s : State) (tag : String),
    (entries.foldl add s).registry.contains tag =
      (s.registry.contains tag || entries.any fun entry => entry.2.offers tag)
  | [], s, tag => by simp
  | entry :: rest, s, tag => by
    rw [List.foldl_cons, contains_run rest, registry_add, Route.contains_register, List.any_cons,
      Bool.or_assoc]

/-- Being served after a run is a matter of its start and of its routes. -/
theorem isServed_run (entries : List (String × Route)) (s : State) (r : Route) :
    r.isServed (entries.foldl add s).registry = r.isAvailable s.registry entries := by
  rw [Route.isServed, Route.isAvailable]
  cases r.outbound? with
  | none => rfl
  | some d => exact contains_run entries s d.tag

end State

/-- The rules of a run of routes from a registry: each route has the rule that it asks for if its
outbound is available from the routes up to it and itself. -/
def panelRules (start : Registry) (entries : List (String × Route)) : List Rule :=
  entries.zipIdx.filterMap fun (entry, i) =>
    if entry.2.isAvailable start (entries.take (i + 1)) then entry.2.rule? entry.1 else none

/-- A further member does not change what the members before it make of those up to them. -/
theorem filterMap_zipIdx_append_singleton {α β : Type} (f : List α → α → Option β) {ahead : Nat}
    (hahead : ahead ≤ 1) (l : List α) (a : α) :
    ((l ++ [a]).zipIdx.filterMap fun (b, i) => f ((l ++ [a]).take (i + ahead)) b) =
      (l.zipIdx.filterMap fun (b, i) => f (l.take (i + ahead)) b) ++
        (f ((l ++ [a]).take (l.length + ahead)) a).toList := by
  have hearlier : (l.zipIdx.filterMap fun (b, i) => f ((l ++ [a]).take (i + ahead)) b)
      = l.zipIdx.filterMap fun (b, i) => f (l.take (i + ahead)) b := by
    refine List.filterMap_congr fun ⟨b, i⟩ hmem => ?_
    have hlt : i < 0 + l.length := by
      simpa [Nat.add_comm] using List.snd_lt_of_mem_zipIdx hmem
    have hle : i + ahead ≤ l.length := by omega
    simp only [List.take_append_of_le_length hle]
  rw [List.zipIdx_append, List.filterMap_append, hearlier, List.zipIdx_singleton, Nat.zero_add]
  cases hf : f ((l ++ [a]).take (l.length + ahead)) a <;> simp [hf]

/-- A further route does not change the rules of those before it. -/
theorem panelRules_append_singleton (start : Registry) (entries : List (String × Route))
    (entry : String × Route) :
    panelRules start (entries ++ [entry]) = panelRules start entries ++
      (if entry.2.isAvailable start (entries ++ [entry]) then entry.2.rule? entry.1
        else none).toList := by
  have hall : (entries ++ [entry]).take (entries.length + 1) = entries ++ [entry] :=
    List.take_of_length_le (by simp)
  have happend := filterMap_zipIdx_append_singleton
    (fun run (e : String × Route) =>
      if e.2.isAvailable start run then e.2.rule? e.1 else none) (Nat.le_refl 1) entries entry
  rw [hall] at happend
  exact happend

/-- **The rules of a run.** -/
theorem State.toList_run (s : State) (entries : List (String × Route)) :
    (entries.foldl State.add s).rules.toList =
      s.rules.toList ++ panelRules s.registry entries := by
  induction entries using List.reverseRecOn with
  | nil => simp [panelRules]
  | append_singleton entries entry ih =>
    have hstep : (entries ++ [entry]).foldl State.add s =
        (entries.foldl State.add s).add entry := by
      rw [List.foldl_append, List.foldl_cons, List.foldl_nil]
    have hserved := State.isServed_run (entries ++ [entry]) s entry.2
    rw [hstep] at hserved
    rw [hstep, State.toList_add, ih, hserved, panelRules_append_singleton, List.append_assoc]

/-! ## The whole table -/

/-- The nodes that the overrides name have their block rules in reverse order. -/
theorem toList_blockRules (o : Options) (overrides : Override.Policy) (nodes : List Node) :
    (o.blockRules overrides nodes).toList =
      ((nodes.filter (overrides.blocks · o.legacy)).map
        fun n => Rule.blockSource n.tag o.source).reverse := by
  have hcalls : o.blockRules overrides nodes =
      ((nodes.filter (overrides.blocks · o.legacy)).map fun n =>
        RuleList.Call.insertHead (.blockSource n.tag o.source)).foldl RuleList.Call.apply
          RuleList.empty := by
    rw [List.foldl_map, List.foldl_filter]
    rfl
  rw [hcalls, RuleList.toList_foldl_apply, List.filterMap_map, List.filterMap_map]
  simp [Function.comp_def, RuleList.Call.front?, RuleList.Call.back?]

/-- Where the routes of the panel begin: behind the block rules and the rule for name queries. -/
def Options.start (o : Options) (overrides : Override.Policy) (nodes : List Node)
    (registry : Registry) : State :=
  ⟨(o.blockRules overrides nodes).append .dnsHijack, registry⟩

/-- A compilation is a run over the routes of all nodes. -/
theorem compile_eq_run (o : Options) (nodes : List Node) (overrides : Override.Policy)
    (registry : Registry) :
    o.compile nodes overrides registry =
      let final := (Node.entries nodes).foldl State.add (o.start overrides nodes registry)
      (⟨overrides.strategy, final.rules.toList⟩, final.registry) := rfl

/-- The three kinds of rules, one after the other. -/
theorem rules_compile (o : Options) (nodes : List Node) (overrides : Override.Policy)
    (registry : Registry) :
    (o.compile nodes overrides registry).1.rules =
      (o.blockRules overrides nodes).toList ++ [Rule.dnsHijack] ++
        panelRules registry (Node.entries nodes) := by
  rw [compile_eq_run]
  simp only [State.toList_run, Options.start, RuleList.toList_append]

/-- **The exact table.** The block rules of the nodes that the overrides name, the last node first;
then the rule for name queries; then a rule for each accepted route whose outbound is available, in
the order of the nodes and of their routes. -/
theorem compile_table (o : Options) (nodes : List Node) (overrides : Override.Policy)
    (registry : Registry) :
    (o.compile nodes overrides registry).1 =
      ⟨overrides.strategy,
        ((nodes.filter (overrides.blocks · o.legacy)).map
            fun n => Rule.blockSource n.tag o.source).reverse ++
          [Rule.dnsHijack] ++ panelRules registry (Node.entries nodes)⟩ := by
  rw [← toList_blockRules, ← rules_compile]
  rfl

end Routing

end EgressPolicy
