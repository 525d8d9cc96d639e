import EgressPolicy.Proofs.Json.TextTheorems
import EgressPolicy.Proofs.Outbound.ValueTheorems
import EgressPolicy.Proofs.Routing.ReachableTheorems

/-!
Importing a registry again.

What is described for an outbound reaches the engine as it was described, but for the letters of the
protocol. Every registry that comes about can therefore be exported as the definitions of its
targets and imported again from their texts: no target is refused, and the same targets stand in the
same order, also those that came from a descriptor made by hand.
-/

namespace EgressPolicy.Routing

open Json Outbound

/-- **Verbatim definitions.** The definition of a target is the value that describes it, with the
protocol in small letters. And the definitions of a registry that comes about, each written as a
text that denotes it, are registered one after the other without an error and give the registry
again. -/
theorem definitions_reimported :
    (∀ (s : String) (v : Json) (d : Descriptor) (t : Target), Denotes Tree.maxOpen s v →
      Descriptor.ofText s = .ok d → Target.build d = .ok t →
        t.definition = Descriptor.withSmallProtocol v) ∧
    ∀ (registry : Registry) (write : Json → String), IsReachable registry →
      (∀ t ∈ registry.targets, Denotes Tree.maxOpen (write t.definition) t.definition) →
        (Registry.empty.registerTexts (registry.definitions.map write)).1 =
          registry.tags.map .ok ∧
        (Registry.empty.registerTexts (registry.definitions.map write)).2.targets =
          registry.targets ∧
        ∀ tag, (Registry.empty.registerTexts (registry.definitions.map write)).2.contains tag =
          registry.contains tag := by
  constructor
  · intro s v d t hs hd ht
    obtain ⟨hread, hnamed⟩ := (Descriptor.ofText_of_denotes hs).mp hd
    cases hsupported : d.isSupported with
    | true =>
      rw [Target.build_eq_ok hnamed hsupported] at ht
      obtain rfl := Except.ok.inj ht
      exact Descriptor.definition_of_ofJson? hs.normal_eq hnamed hsupported hread
    | false =>
      obtain ⟨e, he⟩ := Target.exists_build_eq_error (d := d) (by rw [hsupported, Bool.and_false])
      rw [he] at ht
      cases ht
  · intro registry write hreach hwrite
    exact hreach.isConsistent.rebuilt hwrite

/-- The text of an outbound with members for the engine. -/
def nestedText : String :=
  "\x7b\"protocol\": \"VLess\",
    \"settings\": \x7b\"vnext\": [1, \x7b\"Port\": 443\x7d]\x7d, \"tag\": \"us\"\x7d"

/-- The value of the text. -/
def nestedValue : Json :=
  .object
    [("protocol", .string "VLess"),
     ("settings", .object [("vnext", .array [.number (.integer 1),
       .object [("Port", .number (.integer 443))]])]),
     ("tag", .string "us")]

/-- The descriptor that is read of it. -/
def nested : Descriptor :=
  ⟨"us", "VLess", [("settings", .object [("vnext", .array [.number (.integer 1),
    .object [("Port", .number (.integer 443))]])])]⟩

theorem definitions_reimported_visited :
    Denotes Tree.maxOpen nestedText nestedValue ∧ Descriptor.ofText nestedText = .ok nested ∧
    Target.build nested = .ok nested.target ∧
    nested.target.definition = Descriptor.withSmallProtocol nestedValue ∧
    IsReachable visited ∧
    (∀ t ∈ visited.targets, Denotes Tree.maxOpen t.definition.text t.definition) ∧
    (Registry.empty.registerTexts (visited.definitions.map Json.text)).2.targets =
      visited.targets := by
  have hdenotes : Denotes Tree.maxOpen nestedText nestedValue := by decide +kernel
  have hreach : IsReachable visited := IsReachable.seeded.run _
  have hwrite : ∀ t ∈ visited.targets, Denotes Tree.maxOpen t.definition.text t.definition := by
    decide +kernel
  have hread : Descriptor.ofText nestedText = .ok nested := by decide +kernel
  have hbuilt : Target.build nested = .ok nested.target :=
    Target.build_eq_ok (by decide +kernel) (by decide +kernel)
  exact ⟨hdenotes, hread, hbuilt, definitions_reimported.1 _ _ _ _ hdenotes hread hbuilt, hreach,
    hwrite, (definitions_reimported.2 visited Json.text hreach hwrite).2.1⟩

end EgressPolicy.Routing
