import EgressPolicy.Proofs.Routing.CompileTheorems
import Mathlib.Data.List.Infix

/-!
Rules and outbounds in step.

Two outputs grow side by side: the registry, where a route registers its outbound, and the rule
list, where it appends its rule. `State.Agrees` says that the one can be told from the other: behind
the builtin targets stand the targets that the rules refer to, each at its first mention. Every step
keeps it (`Agrees.add`), so it holds at each moment of a compilation from the seeded registry
(`agrees_of_mem_history`), and nothing ever refers to an outbound that is not there.
-/

namespace EgressPolicy

open Outbound (Registry Target)
open Routing (Rule State Options)

/-! ## The rule of a route -/

namespace Route

/-- A route that names an outbound asks for a rule to it. -/
theorem exists_rule?_of_outbound? {r : Route} {d : Outbound.Descriptor} (inbound : String)
    (h : r.outbound? = some d) :
    ∃ rule, r.rule? inbound = some rule ∧ rule.outboundTag = d.tag := by
  obtain ⟨directive, hdir, hout⟩ := Option.bind_eq_some_iff.mp h
  rw [rule?, hdir, Option.bind_some]
  cases directive with
  | dns _ _ | block _ | blockIp _ | blockPort _ | protocol _ => cases hout
  | route domains outbound | routeIp ips outbound | defaultOut outbound =>
    obtain rfl : outbound = d := Option.some.inj hout
    exact ⟨_, rfl, rfl⟩

/-- A route that names no outbound can only ask for a rule that blocks. -/
theorem outboundTag_of_rule? {r : Route} {inbound : String} {rule : Rule}
    (h : r.rule? inbound = some rule) (hnone : r.outbound? = none) :
    rule.outboundTag = Target.blockTag := by
  obtain ⟨directive, hdir, hrule⟩ := Option.bind_eq_some_iff.mp h
  rw [outbound?, hdir, Option.bind_some] at hnone
  cases directive with
  | dns _ _ => cases hrule
  | block _ | blockIp _ | blockPort _ | protocol _ =>
    rw [← Option.some.inj hrule]
    rfl
  | route _ _ | routeIp _ _ | defaultOut _ => cases hnone

end Route

namespace Routing

/-! ## Foreign tags -/

/-- The outbound tags of some rules that are not builtin, each once, at its first occurrence. -/
def foreignTags (rules : List Rule) : List String :=
  ((rules.map Rule.outboundTag).filter (· ∉ Registry.builtinTags)).eraseDups

theorem mem_foreignTags {rules : List Rule} {tag : String} :
    tag ∈ foreignTags rules ↔
      tag ∈ rules.map Rule.outboundTag ∧ tag ∉ Registry.builtinTags := by
  simp [foreignTags]

/-- A rule to a builtin outbound, or to one that earlier rules refer to, brings no tag. -/
theorem foreignTags_append_known {rules : List Rule} {rule : Rule}
    (h : rule.outboundTag ∈ Registry.builtinTags ∨ rule.outboundTag ∈ foreignTags rules) :
    foreignTags (rules ++ [rule]) = foreignTags rules := by
  rw [foreignTags, List.map_append, List.filter_append, List.eraseDups_append]
  rcases h with hb | hf
  · simp [hb, List.removeAll, foreignTags]
  · have hold := mem_foreignTags.mp hf
    rw [List.mem_map] at hold
    simp [hold.2, List.removeAll, hold.1, foreignTags]

/-- A rule to an outbound that no earlier rule refers to brings its tag. -/
theorem foreignTags_append_new {rules : List Rule} {rule : Rule}
    (hb : rule.outboundTag ∉ Registry.builtinTags) (hf : rule.outboundTag ∉ foreignTags rules) :
    foreignTags (rules ++ [rule]) = foreignTags rules ++ [rule.outboundTag] := by
  have hold : ¬ rule.outboundTag ∈ rules.map Rule.outboundTag :=
    fun hm => hf (mem_foreignTags.mpr ⟨hm, hb⟩)
  rw [List.mem_map] at hold
  rw [foreignTags, List.map_append, List.filter_append, List.eraseDups_append]
  simp [hb, List.removeAll, hold, foreignTags, List.eraseDups_cons]

/-! ## The invariant -/

/-- The targets are the builtin ones and then those that the rules refer to, in the order of their
first mention. -/
structure State.Agrees (s : State) : Prop where
  indexed : s.registry.IsIndexed
  targets : ∃ new, s.registry.targets = Target.builtins ++ new ∧
    new.map Target.tag = foreignTags s.rules.toList

namespace State

variable {s : State}

/-- In a state that agrees, a tag is registered when it is builtin or a rule refers to it. -/
theorem Agrees.contains_iff (h : s.Agrees) (tag : String) :
    s.registry.contains tag = true ↔
      tag ∈ Registry.builtinTags ∨ tag ∈ foreignTags s.rules.toList := by
  obtain ⟨new, htargets, hnew⟩ := h.targets
  rw [h.indexed tag, Registry.tags, htargets, List.map_append, List.mem_append, hnew]
  rfl

/-- Nothing refers to an outbound that is not there. -/
theorem Agrees.contains_outboundTag (h : s.Agrees) {rule : Rule} (hrule : rule ∈ s.rules.toList) :
    s.registry.contains rule.outboundTag = true := by
  rw [h.contains_iff]
  by_cases hb : rule.outboundTag ∈ Registry.builtinTags
  · exact Or.inl hb
  · exact Or.inr (mem_foreignTags.mpr ⟨List.mem_map_of_mem hrule, hb⟩)

/-- Agreement lasts while neither the targets nor the foreign tags change. -/
theorem Agrees.of_known (h : s.Agrees) {t : State} (hreg : t.registry = s.registry)
    (htags : foreignTags t.rules.toList = foreignTags s.rules.toList) : t.Agrees := by
  obtain ⟨new, htargets, hnew⟩ := h.targets
  refine ⟨by rw [hreg]; exact h.indexed, new, ?_, ?_⟩
  · rw [hreg, htargets]
  · rw [hnew, htags]

/-- A new target and the first rule to it come together. -/
theorem Agrees.of_new (h : s.Agrees) {t : State} {target : Target} {rule : Rule}
    (hc : s.registry.contains target.tag = false) (htag : rule.outboundTag = target.tag)
    (hreg : t.registry = s.registry.insert target)
    (hlist : t.rules.toList = s.rules.toList ++ [rule]) : t.Agrees := by
  obtain ⟨new, htargets, hnew⟩ := h.targets
  have hunknown : ¬ (target.tag ∈ Registry.builtinTags ∨
      target.tag ∈ foreignTags s.rules.toList) := by
    rw [← h.contains_iff, hc]
    exact Bool.false_ne_true
  rw [not_or, ← htag] at hunknown
  refine ⟨by rw [hreg]; exact h.indexed.insert target, new ++ [target], ?_, ?_⟩
  · rw [hreg, Registry.insert_of_absent hc, htargets, List.append_assoc]
  · rw [hlist, foreignTags_append_new hunknown.1 hunknown.2, List.map_append, hnew, htag]
    rfl

/-- **Every step keeps rules and outbounds in step.** -/
theorem Agrees.add (h : s.Agrees) (entry : String × Route) : (s.add entry).Agrees := by
  have hreg := registry_add s entry
  have hlist := toList_add s entry
  rw [hreg] at hlist
  rw [Route.register] at hreg
  rw [Route.isServed, Route.register] at hlist
  cases hout : entry.2.outbound? with
  | none =>
    simp only [hout, if_pos] at hreg hlist
    refine h.of_known hreg ?_
    rw [hlist]
    cases hrule : entry.2.rule? entry.1 with
    | none => simp
    | some rule =>
      have htag := Route.outboundTag_of_rule? hrule hout
      exact foreignTags_append_known (Or.inl (by rw [htag]; decide))
  | some d =>
    obtain ⟨rule, hrule, htag⟩ := Route.exists_rule?_of_outbound? entry.1 hout
    simp only [hout, hrule] at hreg hlist
    rcases Registry.register_cases s.registry d with ⟨hc, hr⟩ | ⟨hc, _, hr⟩ | ⟨hc, _, e, hr⟩
    · -- The tag is known: the rule brings nothing new.
      rw [hr] at hreg hlist
      refine h.of_known hreg ?_
      rw [hlist, if_pos hc]
      exact foreignTags_append_known (by rw [htag, ← h.contains_iff]; exact hc)
    · -- The tag is new: the registration succeeds, so there is a rule to go with the target.
      have hthere : (s.registry.insert d.target).contains d.tag = true := by
        rw [Registry.contains_insert]
        simp [Outbound.Descriptor.target]
      rw [hr] at hreg hlist
      rw [if_pos hthere] at hlist
      exact h.of_new hc htag hreg hlist
    · -- The registration fails: there is neither target nor rule.
      rw [hr] at hreg hlist
      refine h.of_known hreg ?_
      rw [hlist, hc]
      simp

theorem Agrees.run (h : s.Agrees) : ∀ entries : List (String × Route),
    (entries.foldl State.add s).Agrees := by
  intro entries
  induction entries generalizing s with
  | nil => exact h
  | cons entry rest ih => exact ih (h.add entry)

end State

/-! ## A compilation from the seeded registry -/

/-- Every state that a compilation goes through. The block rules are put in front, node after node,
while the registry stays as it is; then the rule for name queries comes, and then the routes are
taken one after the other. -/
def Options.history (o : Options) (nodes : List Node) (overrides : Override.Policy)
    (registry : Registry) : List State :=
  (nodes.inits.map fun ns => ⟨o.blockRules overrides ns, registry⟩) ++
    (Node.entries nodes).inits.map fun entries =>
      entries.foldl State.add (o.start overrides nodes registry)

/-- The longest prefix of a list is the list. -/
theorem getLast?_inits {α : Type} (l : List α) : l.inits.getLast? = some l := by
  induction l with
  | nil => rfl
  | cons a rest ih =>
    rw [List.inits_cons, List.getLast?_cons, List.getLast?_map, ih]
    rfl

/-- What a compilation hands out is its last state. -/
theorem getLast?_history (o : Options) (nodes : List Node) (overrides : Override.Policy)
    (registry : Registry) :
    ∃ s, (o.history nodes overrides registry).getLast? = some s ∧
      o.compile nodes overrides registry = (⟨overrides.strategy, s.rules.toList⟩, s.registry) := by
  refine ⟨_, ?_, compile_eq_run o nodes overrides registry⟩
  rw [Options.history, List.getLast?_append, List.getLast?_map, getLast?_inits]
  rfl

/-- Rules to builtin outbounds agree with the seeded registry, however many there are. -/
theorem agrees_of_builtin {rules : RuleList}
    (h : ∀ rule ∈ rules.toList, rule.outboundTag ∈ Registry.builtinTags) :
    State.Agrees ⟨rules, Registry.seeded⟩ := by
  refine ⟨Registry.isIndexed_seeded, [], by simp [Registry.targets_seeded], ?_⟩
  have hnone : foreignTags rules.toList = [] := by
    refine List.eq_nil_iff_forall_not_mem.mpr fun tag hm => ?_
    obtain ⟨hmem, hforeign⟩ := mem_foreignTags.mp hm
    obtain ⟨rule, hrule, rfl⟩ := List.mem_map.mp hmem
    exact hforeign (h rule hrule)
  rw [hnone, List.map_nil]

/-- The block rules refer to a builtin outbound. -/
theorem outboundTag_of_mem_blockRules {o : Options} {overrides : Override.Policy}
    {nodes : List Node} {rule : Rule} (h : rule ∈ (o.blockRules overrides nodes).toList) :
    rule.outboundTag = Target.blockTag := by
  rw [toList_blockRules, List.mem_reverse, List.mem_map] at h
  obtain ⟨n, -, rfl⟩ := h
  rfl

theorem agrees_start (o : Options) (overrides : Override.Policy) (nodes : List Node) :
    (o.start overrides nodes Registry.seeded).Agrees := by
  refine agrees_of_builtin fun rule hrule => ?_
  rw [RuleList.toList_append, List.mem_append, List.mem_singleton] at hrule
  rcases hrule with hblock | rfl
  · rw [outboundTag_of_mem_blockRules hblock]
    decide
  · decide

/-- **At every moment** of a compilation from the seeded registry, rules and outbounds agree. -/
theorem agrees_of_mem_history {o : Options} {nodes : List Node} {overrides : Override.Policy}
    {s : State} (h : s ∈ o.history nodes overrides Registry.seeded) : s.Agrees := by
  rw [Options.history, List.mem_append, List.mem_map, List.mem_map] at h
  rcases h with ⟨ns, -, rfl⟩ | ⟨entries, -, rfl⟩
  · refine agrees_of_builtin fun rule hrule => ?_
    rw [outboundTag_of_mem_blockRules hrule]
    decide
  · exact (agrees_start o overrides nodes).run entries

end Routing

end EgressPolicy
