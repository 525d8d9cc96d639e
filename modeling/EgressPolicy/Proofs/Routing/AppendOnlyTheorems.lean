import EgressPolicy.Proofs.Routing.ReachableTheorems

/-!
The registry only grows, and the first target of a tag stays.

`Target.insertAbsent` is the insertion into an ordered map that keeps what it has, on plain lists of
targets, and `Operation.offered` are the targets that an operation holds out, whatever the registry
has already. The registry refines that map: an operation inserts what it offers, one target after
the other (`targets_after`), and so does a run of operations (`targets_foldl_after`). Insertion only
appends, so old targets are a prefix of new ones (`prefix_foldl_insertAbsent`) and a lookup that
found a target finds it ever after (`Registry.get?_of_prefix`). Failed registrations offer nothing.
-/

namespace EgressPolicy

open Outbound (Registry Target Descriptor)

namespace Outbound

/-! ## The ordered map -/

/-- Appends a target unless one with its tag is there. -/
def Target.insertAbsent (ts : List Target) (t : Target) : List Target :=
  if t.tag ∈ ts.map Target.tag then ts else ts ++ [t]

theorem prefix_insertAbsent (ts : List Target) (t : Target) : ts <+: Target.insertAbsent ts t := by
  unfold Target.insertAbsent
  split
  · exact List.prefix_rfl
  · exact List.prefix_append ts [t]

theorem prefix_foldl_insertAbsent : ∀ (new ts : List Target),
    ts <+: new.foldl Target.insertAbsent ts
  | [], _ => List.prefix_rfl
  | t :: rest, ts => by
    have hstep := prefix_insertAbsent ts t
    have hrest := prefix_foldl_insertAbsent rest (Target.insertAbsent ts t)
    exact hstep.trans hrest

/-- The target of a descriptor, if it can be built. -/
def Target.built? (d : Descriptor) : Option Target :=
  (Target.build d).toOption

theorem built?_eq_some {d : Descriptor} (h : (d.isNamed && d.isSupported) = true) :
    Target.built? d = some d.target := by
  rw [Bool.and_eq_true] at h
  rw [Target.built?, Target.build_eq_ok h.1 h.2]
  rfl

theorem built?_eq_none {d : Descriptor} (h : (d.isNamed && d.isSupported) = false) :
    Target.built? d = none := by
  obtain ⟨e, he⟩ := Target.exists_build_eq_error h
  rw [Target.built?, he]
  rfl

/-! ## One insertion, one registration -/

namespace Registry

variable {r : Registry}

theorem contains_eq_false_iff (h : r.IsIndexed) (tag : String) :
    r.contains tag = false ↔ tag ∉ r.tags := by
  rw [← h tag, Bool.not_eq_true]

/-- The index decides as the list of tags does, so inserting is inserting into the map. -/
theorem targets_insert (h : r.IsIndexed) (t : Target) :
    (r.insert t).targets = Target.insertAbsent r.targets t := by
  unfold Target.insertAbsent
  cases hc : r.contains t.tag with
  | true =>
    have hmem : t.tag ∈ r.targets.map Target.tag := (h t.tag).mp hc
    rw [insert_of_present hc, if_pos hmem]
  | false =>
    have hmem : t.tag ∉ r.targets.map Target.tag := (contains_eq_false_iff h t.tag).mp hc
    rw [insert_of_absent hc, if_neg hmem]

theorem targets_foldl_insert_of_isIndexed : ∀ (ts : List Target) {r : Registry}, r.IsIndexed →
    (ts.foldl insert r).targets = ts.foldl Target.insertAbsent r.targets
  | [], _, _ => rfl
  | t :: rest, r, h => by
    have hrest := targets_foldl_insert_of_isIndexed rest (h.insert t)
    rw [targets_insert h t] at hrest
    exact hrest

/-- A registration inserts what can be built. Where the tag is there, the map keeps what it has, be
there something to insert or not. -/
theorem targets_register (h : r.IsIndexed) (d : Descriptor) :
    (r.register d).2.targets = (Target.built? d).toList.foldl Target.insertAbsent r.targets := by
  rcases register_cases r d with ⟨hc, hr⟩ | ⟨_, hb, hr⟩ | ⟨_, hb, e, hr⟩
  · rw [hr]
    cases hb : d.isNamed && d.isSupported with
    | true =>
      have hkept : Target.insertAbsent r.targets d.target = r.targets := by
        rw [← targets_insert h, insert_of_present (t := d.target) hc]
      rw [built?_eq_some hb]
      exact hkept.symm
    | false =>
      rw [built?_eq_none hb]
      rfl
  · rw [hr, built?_eq_some hb]
    exact targets_insert h d.target
  · rw [hr, built?_eq_none hb]
    rfl

/-- What a lookup found in the first part of a list it finds in the whole. -/
theorem get?_of_prefix {r' : Registry} {tag : String} {t : Target}
    (h : r.targets <+: r'.targets) (hget : r.get? tag = some t) : r'.get? tag = some t := by
  obtain ⟨new, hnew⟩ := h
  rw [get?] at hget ⊢
  rw [← hnew, List.find?_append, hget]
  rfl

/-! ## What a registration answers -/

/-- A registration succeeds for a tag that is there, and else for a descriptor that can be built. -/
theorem register_eq_ok_iff (h : r.IsIndexed) (d : Descriptor) (tag : String) :
    (r.register d).1 = .ok tag ↔ tag = d.tag ∧
      (d.tag ∈ r.tags ∨
        Text.trim d.tag ≠ "" ∧ Text.lowerCase d.protocol ∈ supportedProtocols) := by
  have hnamed : d.isNamed = true ↔ Text.trim d.tag ≠ "" := by
    rw [Descriptor.isNamed, Bool.not_eq_true', ← Bool.not_eq_true, Text.isBlankText_iff]
  have hsupported : d.isSupported = true ↔ Text.lowerCase d.protocol ∈ supportedProtocols := by
    rw [Descriptor.isSupported, decide_eq_true_iff]
  rw [register_ok_iff, contains_register, Bool.or_eq_true, beq_self_eq_true, Bool.true_and,
    Bool.and_eq_true, h d.tag, hnamed, hsupported]

/-- A registration for a tag that is there changes nothing, and neither does one that fails. -/
theorem register_eq_self {d : Descriptor}
    (h : r.contains d.tag = true ∨ ∃ e, (r.register d).1 = .error e) :
    (r.register d).2 = r := by
  rcases register_cases r d with ⟨_, hr⟩ | ⟨hc, _, hr⟩ | ⟨_, _, e, hr⟩
  · rw [hr]
  · rw [hc, hr] at h
    rcases h with h | ⟨e, h⟩
    · cases h
    · cases h
  · rw [hr]

/-- One target more, or none. -/
theorem exists_targets_register_iff (h : r.IsIndexed) (d : Descriptor) :
    (∃ t, (r.register d).2.targets = r.targets ++ [t]) ↔
      (r.register d).1 = .ok d.tag ∧ d.tag ∉ r.tags := by
  have hsame : ¬ ∃ t, r.targets = r.targets ++ [t] := by
    rintro ⟨t, ht⟩
    have hlength := congrArg List.length ht
    rw [List.length_append, List.length_singleton] at hlength
    omega
  rw [← contains_eq_false_iff h]
  rcases register_cases r d with ⟨hc, hr⟩ | ⟨hc, _, hr⟩ | ⟨_, _, e, hr⟩
  · simp only [hr, hc, hsame, reduceCtorEq, and_false]
  · have hnew : (r.insert d.target).targets = r.targets ++ [d.target] := by
      rw [insert_of_absent (t := d.target) hc]
    simp only [hr, hc, and_true, iff_true]
    exact ⟨d.target, hnew⟩
  · simp only [hr, hsame, reduceCtorEq, false_and]

theorem registerText_eq_self {s : String} {e : RegistrationError}
    (h : (r.registerText s).1 = .error e) : (r.registerText s).2 = r := by
  unfold registerText at h ⊢
  cases hread : Descriptor.ofText s with
  | error e' => rfl
  | ok d =>
    simp only [hread] at h
    exact register_eq_self (Or.inr ⟨e, h⟩)

/-- Seeding appends the builtin targets that are missing, in their order. -/
theorem targets_seed (h : r.IsIndexed) :
    r.seed.targets = r.targets ++ Target.builtins.filter fun t => t.tag ∉ r.tags := by
  rw [seed, targets_foldl_insert Target.builtins r (by decide)]
  congr 1
  refine List.filter_congr fun t _ => ?_
  rw [Bool.eq_iff_iff, Bool.not_eq_true', decide_eq_true_iff, contains_eq_false_iff h]

end Registry

end Outbound

namespace Routing

/-! ## Any operation -/

/-- The targets that an operation holds out to a registry. -/
def Operation.offered : Operation → List Target
  | seed => Target.builtins
  | register d => (Target.built? d).toList
  | registerText s =>
    match Descriptor.ofText s with
    | .ok d => (Target.built? d).toList
    | .error _ => []
  | compile _ nodes _ =>
    (Node.entries nodes).filterMap fun entry => entry.2.outbound?.bind Target.built?

theorem targets_add {s : State} (h : s.registry.IsConsistent) (entry : String × Route) :
    (s.add entry).registry.targets =
      (entry.2.outbound?.bind Target.built?).toList.foldl Target.insertAbsent
        s.registry.targets := by
  rw [State.registry_add, Route.register]
  cases entry.2.outbound? with
  | none => rfl
  | some d => exact Registry.targets_register h.indexed d

theorem targets_foldl_add : ∀ (entries : List (String × Route)) {s : State},
    s.registry.IsConsistent →
    (entries.foldl State.add s).registry.targets =
      (entries.filterMap fun entry => entry.2.outbound?.bind Target.built?).foldl
        Target.insertAbsent s.registry.targets
  | [], _, _ => rfl
  | entry :: rest, s, h => by
    have hconsistent : (s.add entry).registry.IsConsistent := by
      rw [State.registry_add]
      exact isConsistent_register h entry.2
    have hrest := targets_foldl_add rest hconsistent
    rw [targets_add h entry] at hrest
    rw [List.foldl_cons, hrest, List.filterMap_cons]
    cases entry.2.outbound?.bind Target.built? <;> rfl

/-- **An operation** inserts what it offers. -/
theorem targets_after {registry : Registry} (h : registry.IsConsistent) (op : Operation) :
    (op.after registry).targets = op.offered.foldl Target.insertAbsent registry.targets := by
  cases op with
  | seed => exact Registry.targets_foldl_insert_of_isIndexed Target.builtins h.indexed
  | register d => exact Registry.targets_register h.indexed d
  | registerText s =>
    simp only [Operation.after, Operation.offered, Registry.registerText]
    cases Descriptor.ofText s with
    | error e => rfl
    | ok d => exact Registry.targets_register h.indexed d
  | compile o nodes overrides =>
    rw [Operation.after, compile_eq_run]
    exact targets_foldl_add (Node.entries nodes) h

/-- **A run of operations** inserts what they offer, one after the other. -/
theorem targets_foldl_after : ∀ (ops : List Operation) {registry : Registry},
    registry.IsConsistent →
    (ops.foldl Operation.after registry).targets =
      (ops.flatMap Operation.offered).foldl Target.insertAbsent registry.targets
  | [], _, _ => rfl
  | op :: rest, registry, h => by
    have hrest := targets_foldl_after rest (isConsistent_after h op)
    rw [targets_after h op] at hrest
    rw [List.foldl_cons, hrest, List.flatMap_cons, List.foldl_append]

theorem get?_foldl_after {registry : Registry} (h : registry.IsConsistent) (ops : List Operation)
    {tag : String} {t : Target} (hget : registry.get? tag = some t) :
    (ops.foldl Operation.after registry).get? tag = some t := by
  refine Registry.get?_of_prefix ?_ hget
  rw [targets_foldl_after ops h]
  exact Outbound.prefix_foldl_insertAbsent _ _

theorem get?_seeded {t : Target} (h : t ∈ Target.builtins) :
    Registry.seeded.get? t.tag = some t := by
  rw [Registry.get?, Registry.targets_seeded]
  simp only [Target.builtins, List.mem_cons, List.not_mem_nil, or_false] at h ⊢
  rcases h with rfl | rfl | rfl
  all_goals decide

/-- **Append-only, first come, and nothing by halves.** Every operation keeps the targets as a
prefix. A registration succeeds where the tag is there already or the descriptor can be built, adds
one target where it succeeds for a tag that was not there, and otherwise changes nothing; seeding
adds the builtin targets that are missing. A run of operations inserts what they offer unless its
tag is there, so a target that was found is found ever after, the builtin ones first of all. -/
theorem appendOnly_of_isReachable {registry : Registry} (h : IsReachable registry) :
    (∀ op : Operation, registry.targets <+: (op.after registry).targets) ∧
    (∀ d : Descriptor,
      (∀ tag, (registry.register d).1 = .ok tag ↔ tag = d.tag ∧
        (d.tag ∈ registry.tags ∨
          Text.trim d.tag ≠ "" ∧ Text.lowerCase d.protocol ∈ Outbound.supportedProtocols)) ∧
      ((∃ t, (registry.register d).2.targets = registry.targets ++ [t]) ↔
        (registry.register d).1 = .ok d.tag ∧ d.tag ∉ registry.tags) ∧
      (d.tag ∈ registry.tags → (registry.register d).2 = registry) ∧
      ∀ e, (registry.register d).1 = .error e → (registry.register d).2 = registry) ∧
    (∀ s e, (registry.registerText s).1 = .error e → (registry.registerText s).2 = registry) ∧
    (registry.seed.targets =
      registry.targets ++ Target.builtins.filter fun t => t.tag ∉ registry.tags) ∧
    (∀ ops : List Operation, (ops.foldl Operation.after registry).targets =
      (ops.flatMap Operation.offered).foldl Target.insertAbsent registry.targets) ∧
    (∀ (ops : List Operation) tag t, registry.get? tag = some t →
      (ops.foldl Operation.after registry).get? tag = some t) ∧
    ∀ (ops : List Operation), ∀ t ∈ Target.builtins,
      (ops.foldl Operation.after Registry.seeded).get? t.tag = some t := by
  have hconsistent := h.isConsistent
  have hindexed := hconsistent.indexed
  refine ⟨?_, fun d => ⟨?_, ?_, ?_, ?_⟩, ?_, ?_, ?_, ?_, ?_⟩
  · intro op
    rw [targets_after hconsistent op]
    exact Outbound.prefix_foldl_insertAbsent _ _
  · exact Registry.register_eq_ok_iff hindexed d
  · exact Registry.exists_targets_register_iff hindexed d
  · intro hmem
    exact Registry.register_eq_self (Or.inl ((hindexed d.tag).mpr hmem))
  · intro e he
    exact Registry.register_eq_self (Or.inr ⟨e, he⟩)
  · intro s e he
    exact Registry.registerText_eq_self he
  · exact Registry.targets_seed hindexed
  · intro ops
    exact targets_foldl_after ops hconsistent
  · intro ops tag t hget
    exact get?_foldl_after hconsistent ops hget
  · intro ops t ht
    exact get?_foldl_after Registry.isConsistent_seeded ops (get?_seeded ht)

/-- Without a protocol, a descriptor can refer to `us` but not bring `uk`, and what comes after `us`
does not change it. -/
theorem appendOnly_of_visited :
    IsReachable visited ∧
    (visited.register ⟨"us", "", []⟩).1 = .ok "us" ∧
    (visited.register ⟨"uk", "", []⟩).2 = visited ∧
    (visited.registerText "\x7b\"tag\":").2 = visited ∧
    ∃ t, visited.get? "us" = some t ∧
      ([Operation.register ⟨"us", "trojan", []⟩, .seed].foldl Operation.after visited).get? "us" =
        some t := by
  have hreach : IsReachable visited := IsReachable.seeded.run _
  obtain ⟨-, hregister, htext, -, -, hget, -⟩ := appendOnly_of_isReachable hreach
  have hus : "us" ∈ visited.tags := by decide +kernel
  have huk : ∃ e, (visited.register ⟨"uk", "", []⟩).1 = .error e :=
    ⟨.unsupportedProtocol "uk" "", by decide +kernel⟩
  have hbroken : ∃ e, (visited.registerText "\x7b\"tag\":").1 = .error e :=
    ⟨.malformed .malformed, by decide +kernel⟩
  have hfound : visited.get? "us" = some disguised.target := by decide +kernel
  obtain ⟨e, he⟩ := huk
  obtain ⟨e', he'⟩ := hbroken
  refine ⟨hreach, ?_, ?_, ?_, disguised.target, hfound, ?_⟩
  · exact ((hregister ⟨"us", "", []⟩).1 "us").mpr ⟨rfl, Or.inl hus⟩
  · exact (hregister ⟨"uk", "", []⟩).2.2.2 e he
  · exact htext _ e' he'
  · exact hget _ "us" disguised.target hfound

end Routing

end EgressPolicy
