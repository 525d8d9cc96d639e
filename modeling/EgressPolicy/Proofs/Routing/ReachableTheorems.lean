import EgressPolicy.Proofs.Outbound.ConsistencyTheorems
import EgressPolicy.Proofs.Routing.CompileTheorems

/-!
Registries that can come about.

A registry begins empty or seeded, and then it is seeded, registered with and compiled against, in
any order and with any success. Compiling against a registry is registering the outbounds of the
accepted routes one after the other, so it keeps what registering keeps. Every registry that comes
about is consistent, and so its index, its lookup and its list of tags answer alike
(`representation_of_isReachable`).
-/

namespace EgressPolicy.Routing

open Outbound (Registry)

/-- What can be done to a registry. -/
inductive Operation where
  /-- The builtin targets are added. -/
  | seed
  /-- A descriptor is registered, be it read or made by hand. -/
  | register (d : Outbound.Descriptor)
  /-- The text of a descriptor is registered. -/
  | registerText (s : String)
  /-- Nodes are compiled against the registry. -/
  | compile (o : Options) (nodes : List Node) (overrides : Override.Policy)

/-- The registry after an operation, whatever the operation answers. -/
def Operation.after (registry : Registry) : Operation → Registry
  | seed => registry.seed
  | register d => (registry.register d).2
  | registerText s => (registry.registerText s).2
  | compile o nodes overrides => (o.compile nodes overrides registry).2

/-- The registries that operations lead to. -/
inductive IsReachable : Registry → Prop where
  | empty : IsReachable Registry.empty
  | seeded : IsReachable Registry.seeded
  | after {registry : Registry} (h : IsReachable registry) (op : Operation) :
    IsReachable (op.after registry)

/-! ## One operation -/

theorem isConsistent_register {registry : Registry} (h : registry.IsConsistent) (r : Route) :
    (r.register registry).IsConsistent := by
  rw [Route.register]
  cases r.outbound? with
  | none => exact h
  | some d => exact h.register d

theorem isConsistent_run : ∀ (entries : List (String × Route)) {s : State},
    s.registry.IsConsistent → (entries.foldl State.add s).registry.IsConsistent
  | [], _, h => h
  | entry :: rest, s, h => by
    have hstep : (s.add entry).registry.IsConsistent := by
      rw [State.registry_add]
      exact isConsistent_register h entry.2
    exact isConsistent_run rest hstep

/-- Every operation keeps a registry consistent, also where it fails. -/
theorem isConsistent_after {registry : Registry} (h : registry.IsConsistent) (op : Operation) :
    (op.after registry).IsConsistent := by
  cases op with
  | seed => exact h.seed
  | register d => exact h.register d
  | registerText s => exact h.registerText s
  | compile o nodes overrides =>
    rw [Operation.after, compile_eq_run]
    exact isConsistent_run (Node.entries nodes) h

/-! ## Any number of operations -/

theorem IsReachable.run {registry : Registry} (h : IsReachable registry) (ops : List Operation) :
    IsReachable (ops.foldl Operation.after registry) := by
  induction ops generalizing registry with
  | nil => exact h
  | cons op rest ih => exact ih (h.after op)

theorem IsReachable.isConsistent {registry : Registry} (h : IsReachable registry) :
    registry.IsConsistent := by
  induction h with
  | empty => exact Registry.isConsistent_empty
  | seeded => exact Registry.isConsistent_seeded
  | after _ op ih => exact isConsistent_after ih op

/-- **The representation of a registry.** Index, lookup and list of tags answer alike, no tag is
there twice, and every target has a definition that the engine can take for its tag. -/
theorem representation_of_isReachable {registry : Registry} (h : IsReachable registry) :
    registry.IsConsistent ∧
    ∀ tag,
      (registry.contains tag = true ↔ (registry.get? tag).isSome = true) ∧
      ((registry.get? tag).isSome = true ↔ tag ∈ registry.tags) ∧
      ∀ t, registry.get? tag = some t → t ∈ registry.targets ∧ t.tag = tag := by
  have hconsistent := h.isConsistent
  refine ⟨hconsistent, fun tag => ⟨?_, registry.isSome_get?_iff tag, ?_⟩⟩
  · rw [registry.isSome_get?_iff tag]
    exact hconsistent.indexed tag
  · intro t ht
    exact Registry.tag_of_get? ht

/-- A descriptor that carries along another tag and a protocol that no engine has. -/
def disguised : Outbound.Descriptor :=
  ⟨"us", "VLESS", [("protocol", .string "smoke"), ("tag", .string "direct")]⟩

/-- A seeded registry after a disguised descriptor, a text that breaks off, and a node with a
default outbound of its own. -/
def visited : Registry :=
  [Operation.register disguised, .registerText "\x7b\"tag\":",
    .compile {} [⟨1, "a", [⟨none, "default_out", [],
      some "\x7b\"tag\":\"hk\",\"protocol\":\"Trojan\"\x7d"⟩]⟩] .default].foldl
    Operation.after Registry.seeded

theorem representation_of_visited :
    IsReachable visited ∧ visited.tags = ["direct", "block", "dns_out", "us", "hk"] ∧
    visited.IsConsistent ∧
    (visited.get? "us").map Outbound.Target.definition =
      some (.object [("protocol", .string "vless"), ("tag", .string "us")]) := by
  have hreach : IsReachable visited := IsReachable.seeded.run _
  exact ⟨hreach, by decide +kernel, (representation_of_isReachable hreach).1, by decide +kernel⟩

end EgressPolicy.Routing
