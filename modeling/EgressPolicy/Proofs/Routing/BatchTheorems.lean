import EgressPolicy.Proofs.Routing.CompileTheorems

/-!
Compiling batch after batch against one registry.

A batch reads the registry only through the tags that are in it, and it leaves a registry with the
tags that its routes offer besides (`contains_registryAfter`). So the routes of two batches have the
rules of the first from where it starts and the rules of the second from where the first ended
(`panelRules_append`), and batches compose (`compile_append`). A batch that is compiled again finds
all that it offers, hence registers nothing (`registryAfter_of_offered`), and has each rule that it
had and perhaps more, namely those of references that came before what they refer to
(`sublist_panelRules`). From then on nothing changes (`compile_converges`).
-/

namespace EgressPolicy

open Outbound (Registry)
open Routing (Rule State Options)

/-- Every tag of one registry is in another. -/
def Outbound.Registry.IsWithin (a b : Registry) : Prop :=
  ∀ tag, a.contains tag = true → b.contains tag = true

theorem Node.entries_append (first second : List Node) :
    Node.entries (first ++ second) = Node.entries first ++ Node.entries second :=
  List.flatMap_append

/-- A route that finds the tag it offers has nothing to register: either its own tag is there, or
its outbound cannot be built. -/
theorem Route.register_of_offered {r : Route} {registry : Registry}
    (h : ∀ tag, r.offers tag = true → registry.contains tag = true) :
    r.register registry = registry := by
  unfold register
  cases hout : r.outbound? with
  | none => rfl
  | some d =>
    have hnamed := isNamed_of_outbound? hout
    rcases Registry.register_cases registry d with ⟨_, hr⟩ | ⟨hc, hb, _⟩ | ⟨_, _, e, hr⟩
    · simp only [hr]
    · have hoffers : r.offers d.tag = true := by
        rw [hnamed, Bool.true_and] at hb
        simp only [offers, hout, hb, beq_self_eq_true, Bool.and_self]
      rw [h d.tag hoffers] at hc
      cases hc
    · simp only [hr]

/-- More tags at the start make no outbound unavailable. -/
theorem Route.isAvailable_of_isWithin {r : Route} {a b : Registry} {run : List (String × Route)}
    (hwithin : a.IsWithin b) (h : r.isAvailable a run = true) : r.isAvailable b run = true := by
  unfold isAvailable at h ⊢
  cases hout : r.outbound? with
  | none => rfl
  | some d =>
    simp only [hout, Bool.or_eq_true] at h ⊢
    exact h.imp_left (hwithin d.tag)

namespace Routing

/-! ## The registry that a run leaves -/

/-- The registry after the outbounds of some routes, one after the other. -/
def registryAfter (start : Registry) (entries : List (String × Route)) : Registry :=
  entries.foldl (fun registry entry => entry.2.register registry) start

theorem State.registry_run : ∀ (entries : List (String × Route)) (s : State),
    (entries.foldl State.add s).registry = registryAfter s.registry entries
  | [], _ => rfl
  | entry :: rest, s => by
    have hrest := State.registry_run rest (s.add entry)
    rw [State.registry_add] at hrest
    exact hrest

theorem registryAfter_append (start : Registry) (first second : List (String × Route)) :
    registryAfter start (first ++ second) = registryAfter (registryAfter start first) second :=
  List.foldl_append

theorem contains_registryAfter (start : Registry) (entries : List (String × Route))
    (tag : String) :
    (registryAfter start entries).contains tag =
      (start.contains tag || entries.any fun entry => entry.2.offers tag) := by
  have hrun := State.contains_run entries ⟨RuleList.empty, start⟩ tag
  rw [State.registry_run] at hrun
  exact hrun

theorem isWithin_registryAfter (start : Registry) (entries : List (String × Route)) :
    start.IsWithin (registryAfter start entries) := by
  intro tag htag
  rw [contains_registryAfter, htag, Bool.true_or]

theorem registry_compile (o : Options) (nodes : List Node) (overrides : Override.Policy)
    (registry : Registry) :
    (o.compile nodes overrides registry).2 = registryAfter registry (Node.entries nodes) := by
  rw [compile_eq_run]
  exact State.registry_run (Node.entries nodes) (o.start overrides nodes registry)

/-! ## One batch behind another -/

/-- The second part of a run sees what the first part has registered, and nothing else of it. -/
theorem panelRules_append (start : Registry) (first second : List (String × Route)) :
    panelRules start (first ++ second) =
      panelRules start first ++ panelRules (registryAfter start first) second := by
  have hboth := State.toList_run ⟨RuleList.empty, start⟩ (first ++ second)
  have hfirst := State.toList_run ⟨RuleList.empty, start⟩ first
  have hsecond := State.toList_run (first.foldl State.add ⟨RuleList.empty, start⟩) second
  rw [List.foldl_append, hsecond, hfirst, State.registry_run] at hboth
  simpa using hboth.symm

theorem toList_blockRules_append (o : Options) (overrides : Override.Policy)
    (first second : List Node) :
    (o.blockRules overrides (first ++ second)).toList =
      (o.blockRules overrides second).toList ++ (o.blockRules overrides first).toList := by
  simp only [toList_blockRules, List.filter_append, List.map_append, List.reverse_append]

theorem length_blockRules (o : Options) (overrides : Override.Policy) (nodes : List Node) :
    (o.blockRules overrides nodes).toList.length =
      (nodes.filter (overrides.blocks · o.legacy)).length := by
  rw [toList_blockRules, List.length_reverse, List.length_map]

/-- The number of blocked nodes tells the block rules of a table from the rules of the panel. -/
theorem eq_of_rules_compile {o : Options} {nodes : List Node} {overrides : Override.Policy}
    {registry : Registry} {blocks panel : List Rule}
    (hrules : (o.compile nodes overrides registry).1.rules = blocks ++ [Rule.dnsHijack] ++ panel)
    (hblocks : blocks.length = (nodes.filter (overrides.blocks · o.legacy)).length) :
    blocks = (o.blockRules overrides nodes).toList ∧
      panel = panelRules registry (Node.entries nodes) := by
  rw [rules_compile, List.append_assoc, List.append_assoc] at hrules
  have hlength : (o.blockRules overrides nodes).toList.length = blocks.length := by
    rw [length_blockRules, hblocks]
  obtain ⟨hb, hp⟩ := List.append_inj hrules hlength
  exact ⟨hb.symm, (List.cons_inj_right Rule.dnsHijack |>.mp hp).symm⟩

/-- **Batches compose.** Two batches that are compiled one after the other against a registry leave
the registry that both leave together. The table of both together has the block rules of the second
batch, then those of the first, the rule for name queries once, and then the panel's rules of the
first batch and those of the second. -/
theorem compile_append (o : Options) (overrides : Override.Policy)
    {registry registry₁ registry₂ : Registry} {nodes₁ nodes₂ : List Node}
    {blocks₁ panel₁ blocks₂ panel₂ : List Rule}
    (hrules₁ : (o.compile nodes₁ overrides registry).1.rules =
      blocks₁ ++ [Rule.dnsHijack] ++ panel₁)
    (hblocks₁ : blocks₁.length = (nodes₁.filter (overrides.blocks · o.legacy)).length)
    (hregistry₁ : (o.compile nodes₁ overrides registry).2 = registry₁)
    (hrules₂ : (o.compile nodes₂ overrides registry₁).1.rules =
      blocks₂ ++ [Rule.dnsHijack] ++ panel₂)
    (hblocks₂ : blocks₂.length = (nodes₂.filter (overrides.blocks · o.legacy)).length)
    (hregistry₂ : (o.compile nodes₂ overrides registry₁).2 = registry₂) :
    (o.compile (nodes₁ ++ nodes₂) overrides registry).1.rules =
      blocks₂ ++ blocks₁ ++ [Rule.dnsHijack] ++ panel₁ ++ panel₂ ∧
    (o.compile (nodes₁ ++ nodes₂) overrides registry).2 = registry₂ := by
  obtain ⟨hb₁, hp₁⟩ := eq_of_rules_compile hrules₁ hblocks₁
  obtain ⟨hb₂, hp₂⟩ := eq_of_rules_compile hrules₂ hblocks₂
  rw [registry_compile] at hregistry₁ hregistry₂
  constructor
  · rw [rules_compile, toList_blockRules_append, Node.entries_append, panelRules_append,
      hregistry₁, ← hb₁, ← hb₂, ← hp₁, ← hp₂]
    simp only [List.append_assoc]
  · rw [registry_compile, Node.entries_append, registryAfter_append, hregistry₁, hregistry₂]

/-- The operator blocks both nodes of the two batches below. -/
def blockingBoth : Override.Policy :=
  ⟨.asIs, Std.TreeSet.ofList ([3, 7] : List Int64), [], []⟩

/-- A batch that brings an outbound. -/
def bringing : List Node :=
  [⟨3, "a", [⟨none, "default_out", [],
    some "\x7b\"tag\":\"us\",\"protocol\":\"vmess\"\x7d"⟩]⟩]

/-- A batch that refers to it. -/
def referring : List Node :=
  [⟨7, "b", [⟨none, "default_out", [], some "\x7b\"tag\":\"us\"\x7d"⟩]⟩]

theorem compile_append_referring :
    let o : Options := {}
    let registry := (o.compile bringing blockingBoth Registry.seeded).2
    (o.compile (bringing ++ referring) blockingBoth Registry.seeded).1.rules =
        [.blockSource "b" o.source, .blockSource "a" o.source, .dnsHijack, .catchAll "a" "us",
          .catchAll "b" "us"] ∧
      (o.compile (bringing ++ referring) blockingBoth Registry.seeded).2 =
        (o.compile referring blockingBoth registry).2 := by
  intro o registry
  have hrules₁ : (o.compile bringing blockingBoth Registry.seeded).1.rules =
      [.blockSource "a" o.source] ++ [Rule.dnsHijack] ++ [.catchAll "a" "us"] := by decide +kernel
  have hrules₂ : (o.compile referring blockingBoth registry).1.rules =
      [.blockSource "b" o.source] ++ [Rule.dnsHijack] ++ [.catchAll "b" "us"] := by decide +kernel
  exact compile_append o blockingBoth hrules₁ (by decide +kernel) rfl hrules₂
    (by decide +kernel) rfl

/-! ## The same batch again -/

/-- Nothing is registered where all that is offered is there. -/
theorem registryAfter_of_offered {registry : Registry} : ∀ {entries : List (String × Route)},
    (∀ entry ∈ entries, ∀ tag, entry.2.offers tag = true → registry.contains tag = true) →
    registryAfter registry entries = registry
  | [], _ => rfl
  | entry :: rest, h => by
    have hfirst := Route.register_of_offered (h entry List.mem_cons_self)
    have hlater : ∀ other ∈ rest, ∀ tag, other.2.offers tag = true →
        registry.contains tag = true :=
      fun other hother => h other (List.mem_cons_of_mem entry hother)
    have hrest := registryAfter_of_offered hlater
    unfold registryAfter at hrest ⊢
    rw [List.foldl_cons, hfirst, hrest]

/-- A second pass over the same routes registers nothing. -/
theorem registryAfter_registryAfter (start : Registry) (entries : List (String × Route)) :
    registryAfter (registryAfter start entries) entries = registryAfter start entries := by
  refine registryAfter_of_offered fun entry hentry tag hoffers => ?_
  have hany : (entries.any fun other => other.2.offers tag) = true :=
    List.any_eq_true.mpr ⟨entry, hentry, hoffers⟩
  rw [contains_registryAfter, hany, Bool.or_true]

/-- Giving values for more members, and no other values, only adds to a list. -/
theorem sublist_filterMap {α β : Type} {f g : α → Option β} : ∀ {l : List α},
    (∀ a ∈ l, f a = none ∨ f a = g a) → (l.filterMap f).Sublist (l.filterMap g)
  | [], _ => List.Sublist.slnil
  | a :: rest, h => by
    have hlater : ∀ b ∈ rest, f b = none ∨ f b = g b :=
      fun b hb => h b (List.mem_cons_of_mem a hb)
    have hrest := sublist_filterMap hlater
    have hfirst : (f a).toList.Sublist (g a).toList := by
      rcases h a List.mem_cons_self with hnone | hsame
      · rw [hnone]
        exact List.nil_sublist _
      · rw [hsame]
    have hcons (p : α → Option β) :
        (a :: rest).filterMap p = (p a).toList ++ rest.filterMap p := by
      rw [List.filterMap_cons]
      cases p a <;> rfl
    rw [hcons f, hcons g]
    exact hfirst.append hrest

/-- A run that starts with more tags has all rules that it has with fewer. -/
theorem sublist_panelRules {a b : Registry} (hwithin : a.IsWithin b)
    (entries : List (String × Route)) :
    (panelRules a entries).Sublist (panelRules b entries) := by
  refine sublist_filterMap fun ⟨entry, i⟩ _ => ?_
  cases ha : entry.2.isAvailable a (entries.take (i + 1)) with
  | false =>
    left
    simp only [ha, Bool.false_eq_true, if_false]
  | true =>
    have hb := Route.isAvailable_of_isWithin hwithin ha
    right
    simp only [ha, hb]

/-- **Compiling again converges at once.** A second compilation of the same nodes leaves the
registry as the first left it and loses none of its rules. A third has the rules of the second. -/
theorem compile_converges (o : Options) (nodes : List Node) (overrides : Override.Policy)
    (registry : Registry) :
    let first := o.compile nodes overrides registry
    let second := o.compile nodes overrides first.2
    let third := o.compile nodes overrides second.2
    second.2 = first.2 ∧ third.2 = first.2 ∧ first.1.rules.Sublist second.1.rules ∧
      third.1.rules = second.1.rules := by
  intro first second third
  have hsettled : second.2 = first.2 := by
    simp only [second, first, registry_compile, registryAfter_registryAfter]
  have hsame : third = second := by
    simp only [third, hsettled]
    rfl
  have hgrown : registry.IsWithin first.2 := by
    simp only [first, registry_compile]
    exact isWithin_registryAfter registry (Node.entries nodes)
  refine ⟨hsettled, by rw [hsame, hsettled], ?_, by rw [hsame]⟩
  simp only [second]
  rw [rules_compile, rules_compile]
  exact (List.Sublist.refl _).append (sublist_panelRules hgrown (Node.entries nodes))

/-- A reference that comes before what it refers to has no rule in the first pass. -/
example :
    let nodes : List Node := [⟨3, "a",
      [⟨none, "route", ["x.example"], some "\x7b\"tag\":\"us\"\x7d"⟩,
       ⟨none, "default_out", [], some "\x7b\"tag\":\"us\",\"protocol\":\"vmess\"\x7d"⟩]⟩]
    let first := Options.compile {} nodes .default Registry.seeded
    let second := Options.compile {} nodes .default first.2
    (first.1.rules.length, second.1.rules.length) = (2, 3) := by
  decide +kernel

end Routing

end EgressPolicy
