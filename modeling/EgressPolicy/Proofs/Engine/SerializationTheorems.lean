import EgressPolicy.Proofs.Dns.ValueTheorems
import EgressPolicy.Proofs.Engine.CompileTheorems
import EgressPolicy.Proofs.Json.TextTheorems
import EgressPolicy.Proofs.Outbound.ValueTheorems
import EgressPolicy.Proofs.Routing.DefinitionTheorems
import EgressPolicy.Proofs.Routing.ReachableTheorems
import EgressPolicy.Proofs.Routing.ValueTheorems

/-!
What a configuration is written as.

A configuration that comes from a compilation carries along only what was read as values, so no
object in it has a key twice (`Config.IsWritable.hasDistinctKeys_toJson`), and its value says all of
it: the configuration can be read back (`Config.IsWritable.ofJson?_toJson`). With the text of values
this makes the text for the engine unambiguous (`serialization_of_compile`).
-/

namespace EgressPolicy.Engine

open Json Json.Tree
open Outbound (Registry Target Descriptor)

/-! ## Configurations that are written without loss -/

/-- A configuration in which everything that is carried along is kept as a value, and every outbound
is known by its definition. -/
structure Config.IsWritable (c : Config) : Prop where
  dns : c.dns.toDocument.IsKept
  sound : ∀ t ∈ c.outbounds, t.IsSound
  normal : ∀ t ∈ c.outbounds, t.definition.normal = t.definition

/-- The definitions of a compilation are normal: they are builtin, or they come from texts. -/
theorem normal_of_mem_targets_compile (o : Routing.Options) (nodes : List Node)
    (overrides : Override.Policy) {t : Target}
    (h : t ∈ (o.compile nodes overrides Registry.seeded).2.targets) :
    t.definition.normal = t.definition := by
  rw [Routing.compile_eq_run] at h
  simp only [Routing.State.targets_run, List.mem_append] at h
  rcases h with h | h
  · have hbuiltin : t ∈ Target.builtins := Registry.targets_seeded ▸ h
    exact Target.normal_of_mem_builtins hbuiltin
  · obtain ⟨d, hd, rfl⟩ := List.mem_map.mp h
    obtain ⟨⟨entry, i⟩, -, hoffer⟩ := List.mem_filterMap.mp hd
    obtain ⟨s, hs⟩ := exists_ofText_of_outbound? (Route.outbound?_of_newOffer? hoffer).1
    exact Descriptor.normal_definition (Descriptor.areKept_of_ofText hs).normal

/-- **A compilation** hands out what can be written without loss. -/
theorem isWritable_of_compile {settings : Settings} {host : Host} {nodes : List Node}
    {config : Config} (h : compile settings host nodes = .ok config) : config.IsWritable := by
  obtain rfl := eq_assembled_of_compile h
  have hreach := Routing.IsReachable.seeded.after (.compile settings.routingOptions nodes
    (Override.Policy.ofFile host.routeFile))
  exact ⟨Dns.Policy.isKept_resolve _ _ _ _, hreach.isConsistent.sound,
    fun _ => normal_of_mem_targets_compile _ _ _⟩

def Config.ofJson? : Json → Option Config
  | .object ms => do
    let dns ← (Members.get? ms "dns").bind Dns.Policy.ofJson?
    let outbounds ← (Members.get? ms "outbounds").bind (asListOf? Target.ofDefinition?)
    let routing ← (Members.get? ms "routing").bind Routing.Table.ofJson?
    return ⟨dns, outbounds, routing⟩
  | .null | .bool _ | .number _ | .string _ | .array _ => none

section

variable {c : Config} (h : c.IsWritable)

include h

/-- **Reading undoes writing.** -/
theorem Config.IsWritable.ofJson?_toJson : ofJson? c.toJson.normal = some c := by
  have hnodup : (Members.keys [("dns", c.dns.toJson),
    ("outbounds", .array (c.outbounds.map Target.definition)),
    ("routing", c.routing.toJson)]).Nodup := by simp [Members.keys]
  have hget := Members.get?_normal hnodup
  rw [toJson, normal_object]
  generalize Members.ofList _ = ms at hget ⊢
  have hdns : (Members.get? ms "dns").bind Dns.Policy.ofJson? = some c.dns := by
    rw [hget, Members.get?_cons_self]
    exact Dns.Policy.ofJson?_toJson h.dns
  have houtbounds : (Members.get? ms "outbounds").bind (asListOf? Target.ofDefinition?) =
      some c.outbounds := by
    have hitems : ∀ v ∈ c.outbounds.map Target.definition, v.normal = v := by
      rw [List.forall_mem_map]
      exact h.normal
    rw [hget, Members.get?_cons_of_ne (by decide), Members.get?_cons_self, Option.map_some,
      normal_array_eq_self_iff.mpr hitems]
    exact asListOf?_map fun t ht => (h.sound t ht).ofDefinition?_definition
  have hrouting : (Members.get? ms "routing").bind Routing.Table.ofJson? = some c.routing := by
    rw [hget, Members.get?_cons_of_ne (by decide), Members.get?_cons_of_ne (by decide),
      Members.get?_cons_self]
    exact c.routing.ofJson?_toJson
  rw [ofJson?, hdns, houtbounds, hrouting]
  rfl

/-- No object of a configuration repeats a key. -/
theorem Config.IsWritable.hasDistinctKeys_toJson (read : Number → Option Number) :
    (ofValueBy read c.toJson).hasDistinctKeys = true := by
  rw [toJson]
  refine hasDistinctKeys_ofValueBy_object (by simp [Members.keys]) fun m hm => ?_
  simp only [List.mem_cons, List.not_mem_nil, or_false] at hm
  rcases hm with rfl | rfl | rfl
  · exact Dns.Policy.hasDistinctKeys_toJson h.dns read
  · refine hasDistinctKeys_ofValueBy_array fun v hv => ?_
    obtain ⟨t, ht, rfl⟩ := List.mem_map.mp hv
    exact hasDistinctKeys_of_normal (h.normal t ht)
  · exact c.routing.hasDistinctKeys_toJson read

end

/-! ## The text for the engine -/

/-- **The text for the engine** is unambiguous. It is a JSON text in which no object repeats a key,
and its tree is that of the configuration, but for numbers that are read as others than those that
were written; where there are none, it is read as the value of the configuration. And two
compilations whose configurations have one value hand out one configuration. -/
theorem serialization_of_compile {settings : Settings} {host : Host} {nodes : List Node}
    {config : Config} (h : compile settings host nodes = .ok config) :
    HasTree config.toJson.text (ofValueBy Number.reread? config.toJson) ∧
    (ofValueBy Number.reread? config.toJson).hasDistinctKeys = true ∧
    ((∀ n ∈ config.toJson.numbers, n.reread? = some n) →
      HasTree config.toJson.text (ofValue config.toJson) ∧
      ∀ room, config.toJson.depth ≤ room →
        Denotes room config.toJson.text config.toJson.normal) ∧
    ∀ settings' host' nodes' config', compile settings' host' nodes' = .ok config' →
      config'.toJson.normal = config.toJson.normal → config' = config := by
  have hwritable := isWritable_of_compile h
  refine ⟨hasTree_text _, hwritable.hasDistinctKeys_toJson _, fun hnumbers => ?_, ?_⟩
  · refine ⟨hasTree_text_ofValue hnumbers, fun room hroom => ?_⟩
    have hdistinct := hwritable.hasDistinctKeys_toJson some
    rw [ofValueBy_some] at hdistinct
    exact denotes_text hdistinct hroom hnumbers
  · intro settings' host' nodes' config' h' hsame
    have hread := (isWritable_of_compile h').ofJson?_toJson
    rw [hsame, hwritable.ofJson?_toJson] at hread
    exact (Option.some.inj hread).symm

/-- A host whose DNS document has a number and a text that has to be escaped. -/
def escapingHost : Host :=
  ⟨true,
    .ofText "\x7b\"servers\":[\"1.1.1.1\"],\"tag\":\"a\\u0001\\\"b\",\"ttl\":300\x7d",
    .absent⟩

theorem serialization_of_compile_escaping :
    compile {} escapingHost twoNodes = .ok (assembled {} escapingHost twoNodes) ∧
    (assembled {} escapingHost twoNodes).toJson.numbers = [.integer 300] ∧
    Members.get? (assembled {} escapingHost twoNodes).dns.extra "tag" =
      some (.string "a\x01\"b") ∧
    Denotes maxOpen (assembled {} escapingHost twoNodes).toJson.text
      (assembled {} escapingHost twoNodes).toJson.normal := by
  have hcompile : compile {} escapingHost twoNodes = .ok (assembled {} escapingHost twoNodes) :=
    compile_eq_ok (by decide +kernel) twoNodes
  have hnumbers : (assembled {} escapingHost twoNodes).toJson.numbers = [.integer 300] := by
    decide +kernel
  refine ⟨hcompile, hnumbers, by decide +kernel, ?_⟩
  refine ((serialization_of_compile hcompile).2.2.1 ?_).2 maxOpen (by decide +kernel)
  rw [hnumbers]
  decide +kernel

end EgressPolicy.Engine
