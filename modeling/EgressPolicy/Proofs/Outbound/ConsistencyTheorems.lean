import EgressPolicy.Proofs.Outbound.RegistryTheorems

/-!
What a registry keeps through all its operations.

`Target.IsSound` is what the engine relies on in one target, and `Registry.IsConsistent` what holds
of all of them together: the index has the tags of the targets, no two targets share a tag, and each
target is sound. A target that was built is sound whatever else its description carries along, since
its tag and its protocol are written last. Each operation inserts sound targets or changes nothing.
-/

namespace EgressPolicy.Outbound

/-! ## One target -/

/-- A definition that stands for its target: an object with the tag of the target, which is not
blank, and with a protocol that the engine has. -/
structure Target.IsSound (t : Target) : Prop where
  isNamed : Text.trim t.tag ≠ ""
  definition : ∃ members, t.definition = .object members ∧
    Json.Members.get? members "tag" = some (.string t.tag) ∧
    ∃ protocol ∈ supportedProtocols,
      Json.Members.get? members "protocol" = some (.string protocol)

/-- The tag and the protocol that a descriptor carries along among its other members are
overwritten. -/
theorem Descriptor.isSound_target {d : Descriptor} (hn : d.isNamed = true)
    (hs : d.isSupported = true) : d.target.IsSound := by
  have hprotocol : Text.lowerCase d.protocol ∈ supportedProtocols := by
    simpa [isSupported] using hs
  have htag : Text.trim d.tag ≠ "" := by
    intro hblank
    rw [isNamed, (Text.isBlankText_iff d.tag).mpr hblank] at hn
    cases hn
  refine ⟨htag, _, rfl, ?_, _, hprotocol, Json.Members.get?_insert_self _ _ _⟩
  rw [Json.Members.get?_insert_of_ne (by decide)]
  exact Json.Members.get?_insert_self _ _ _

theorem Target.isSound_of_mem_builtins {t : Target} (h : t ∈ builtins) : t.IsSound := by
  simp only [builtins, List.mem_cons, List.not_mem_nil, or_false] at h
  rcases h with rfl | rfl | rfl
  all_goals exact ⟨by decide, _, rfl, rfl, _, by decide, rfl⟩

namespace Registry

/-! ## All targets -/

/-- Index and targets say the same, tags are unique, and every target is sound. -/
structure IsConsistent (r : Registry) : Prop where
  indexed : r.IsIndexed
  nodup : r.tags.Nodup
  sound : ∀ t ∈ r.targets, t.IsSound

variable {r : Registry}

theorem isConsistent_empty : IsConsistent empty :=
  ⟨isIndexed_empty, List.nodup_nil, fun _ h => absurd h List.not_mem_nil⟩

/-- Inserting asks whether the tag is there, so tags stay unique. -/
theorem IsConsistent.insert (h : r.IsConsistent) {t : Target} (ht : t.IsSound) :
    (r.insert t).IsConsistent := by
  cases hc : r.contains t.tag with
  | true =>
    rw [insert_of_present hc]
    exact h
  | false =>
    have hnew : t.tag ∉ r.tags := by
      intro hmem
      rw [(h.indexed t.tag).mpr hmem] at hc
      cases hc
    refine ⟨h.indexed.insert t, ?_, ?_⟩
    · rw [insert_of_absent hc, tags, List.map_append, List.nodup_append]
      refine ⟨h.nodup, List.pairwise_singleton _ _, ?_⟩
      rintro tag hold _ hlast rfl
      obtain rfl : tag = t.tag := List.mem_singleton.mp hlast
      exact hnew hold
    · intro u hu
      rw [insert_of_absent hc, List.mem_append, List.mem_singleton] at hu
      rcases hu with hu | rfl
      · exact h.sound u hu
      · exact ht

theorem IsConsistent.seed (h : r.IsConsistent) : r.seed.IsConsistent := by
  have hrun : ∀ (ts : List Target) {r : Registry}, r.IsConsistent → (∀ t ∈ ts, t.IsSound) →
      (ts.foldl Registry.insert r).IsConsistent := by
    intro ts
    induction ts with
    | nil =>
      intro r hr _
      exact hr
    | cons t rest ih =>
      intro r hr hts
      have ht := hts t List.mem_cons_self
      exact ih (hr.insert ht) fun u hu => hts u (List.mem_cons_of_mem t hu)
  exact hrun Target.builtins h fun _ => Target.isSound_of_mem_builtins

theorem isConsistent_seeded : IsConsistent seeded :=
  isConsistent_empty.seed

/-- A registration inserts the target of a descriptor that could be built, or nothing. -/
theorem IsConsistent.register (h : r.IsConsistent) (d : Descriptor) :
    (r.register d).2.IsConsistent := by
  rcases register_cases r d with ⟨_, hr⟩ | ⟨_, hbuilt, hr⟩ | ⟨_, _, e, hr⟩
  · rw [hr]
    exact h
  · rw [Bool.and_eq_true] at hbuilt
    rw [hr]
    exact h.insert (Descriptor.isSound_target hbuilt.1 hbuilt.2)
  · rw [hr]
    exact h

theorem IsConsistent.registerText (h : r.IsConsistent) (s : String) :
    (r.registerText s).2.IsConsistent := by
  rw [Registry.registerText]
  cases Descriptor.ofText s with
  | error e => exact h
  | ok d => exact h.register d

/-! ## Looking up -/

/-- Looking a tag up gives a target with the tag. -/
theorem tag_of_get? {tag : String} {t : Target} (h : r.get? tag = some t) :
    t ∈ r.targets ∧ t.tag = tag := by
  rw [get?] at h
  exact ⟨List.mem_of_find?_eq_some h, by simpa using List.find?_some h⟩

/-- Looking a tag up finds a target exactly when one has the tag. -/
theorem isSome_get?_iff (r : Registry) (tag : String) :
    (r.get? tag).isSome = true ↔ tag ∈ r.tags := by
  rw [get?, List.find?_isSome, tags, List.mem_map]
  simp only [beq_iff_eq]

end Registry

end EgressPolicy.Outbound
