import EgressPolicy.Proofs.Routing.CompileTheorems

/-!
Which definition an outbound gets.

Many routes may describe an outbound under one tag. `firstOffers` picks those that count from the
routes alone: of every tag that is not registered at the start, the first description that the
engine can build. Descriptions before it with a protocol that the engine does not have are not
looked at, nor are any after it. Step by step the registry grows by exactly their targets
(`targets_run`), and each tag gets one (`count_firstOffers`).
-/

namespace EgressPolicy

open Outbound (Registry Descriptor Target)
open Routing (State)

namespace Route

/-- The outbound of a route that is accepted, where the engine can build it and its tag is not
known. -/
def newOffer? (r : Route) (isKnown : String → Bool) : Option Descriptor :=
  r.outbound?.filter fun d => d.isSupported && !isKnown d.tag

theorem outbound?_of_newOffer? {r : Route} {isKnown : String → Bool} {d : Descriptor}
    (h : r.newOffer? isKnown = some d) : r.outbound? = some d ∧ d.isSupported = true := by
  rw [newOffer?, Option.filter_eq_some_iff, Bool.and_eq_true] at h
  exact ⟨h.1, h.2.1⟩

/-- A new offer can be built. -/
theorem build_of_newOffer? {r : Route} {isKnown : String → Bool} {d : Descriptor}
    (h : r.newOffer? isKnown = some d) : Target.build d = .ok d.target := by
  obtain ⟨hout, hsupported⟩ := outbound?_of_newOffer? h
  exact Target.build_eq_ok (isNamed_of_outbound? hout) hsupported

/-- The tag of a new offer is one that the route offers and that is not known. -/
theorem count_newOffer? (r : Route) (isKnown : String → Bool) (tag : String) :
    ((r.newOffer? isKnown).toList.map Descriptor.tag).count tag =
      if !isKnown tag && r.offers tag then 1 else 0 := by
  rw [newOffer?, offers]
  cases r.outbound? with
  | none => simp
  | some d =>
    rw [Option.filter_some]
    by_cases htag : d.tag = tag
    · subst htag
      cases hs : d.isSupported <;> cases isKnown d.tag <;> simp [hs]
    · cases d.isSupported <;> cases isKnown d.tag <;> simp [htag]

/-- Registering the outbound of a route appends the target of a new offer. -/
theorem targets_register (r : Route) (registry : Registry) :
    (r.register registry).targets =
      registry.targets ++ (r.newOffer? registry.contains).toList.map Descriptor.target := by
  rw [register, newOffer?]
  cases hout : r.outbound? with
  | none => simp
  | some d =>
    have hnamed := isNamed_of_outbound? hout
    rw [Option.filter_some]
    rcases Registry.register_cases registry d with ⟨hc, hr⟩ | ⟨hc, hb, hr⟩ | ⟨hc, hb, e, hr⟩
    · simp [hr, hc]
    · rw [hnamed, Bool.true_and] at hb
      have hinsert := Registry.insert_of_absent (t := d.target) hc
      simp [hr, hc, hb, hinsert]
    · rw [hnamed, Bool.true_and] at hb
      simp [hr, hb]

end Route

namespace Routing

/-- The descriptions that a run of routes has built: of each tag that is not registered at the
start, the first one with a protocol that the engine has. -/
def firstOffers (start : Registry) (entries : List (String × Route)) : List Descriptor :=
  entries.zipIdx.filterMap fun (entry, i) =>
    entry.2.newOffer? fun tag =>
      start.contains tag || (entries.take i).any fun earlier => earlier.2.offers tag

/-- A further route does not change the first offers before it. -/
theorem firstOffers_append_singleton (start : Registry) (entries : List (String × Route))
    (entry : String × Route) :
    firstOffers start (entries ++ [entry]) = firstOffers start entries ++
      (entry.2.newOffer? fun tag =>
        start.contains tag || entries.any fun earlier => earlier.2.offers tag).toList := by
  have hbefore : (entries ++ [entry]).take (entries.length + 0) = entries := by simp
  have happend := filterMap_zipIdx_append_singleton
    (fun run (e : String × Route) => e.2.newOffer? fun tag =>
      start.contains tag || run.any fun earlier => earlier.2.offers tag)
    (Nat.zero_le 1) entries entry
  rw [hbefore] at happend
  exact happend

/-- Each tag that is offered and not registered at the start has one first offer; other tags have
none. -/
theorem count_firstOffers (start : Registry) (entries : List (String × Route)) (tag : String) :
    ((firstOffers start entries).map Descriptor.tag).count tag =
      if !start.contains tag && entries.any fun entry => entry.2.offers tag then 1 else 0 := by
  induction entries using List.reverseRecOn with
  | nil => simp [firstOffers]
  | append_singleton entries entry ih =>
    rw [firstOffers_append_singleton, List.map_append, List.count_append, ih,
      Route.count_newOffer?, List.any_append, List.any_cons, List.any_nil, Bool.or_false]
    -- The tag has one first offer before this route or at it, but not both.
    cases start.contains tag <;> cases entries.any (fun e => e.2.offers tag) <;>
      cases entry.2.offers tag <;> rfl

/-- **The targets of a run** are those of the start and then one for each first offer. -/
theorem State.targets_run (s : State) (entries : List (String × Route)) :
    (entries.foldl State.add s).registry.targets =
      s.registry.targets ++ (firstOffers s.registry entries).map Descriptor.target := by
  induction entries using List.reverseRecOn with
  | nil => simp [firstOffers]
  | append_singleton entries entry ih =>
    have hknown : (entries.foldl State.add s).registry.contains = fun tag =>
        s.registry.contains tag || entries.any fun earlier => earlier.2.offers tag := by
      funext tag
      exact State.contains_run entries s tag
    rw [List.foldl_append, List.foldl_cons, List.foldl_nil, State.registry_add,
      Route.targets_register, ih, hknown, firstOffers_append_singleton, List.map_append,
      List.append_assoc]

/-- **Which definition an outbound gets.** A compilation keeps the targets that it starts with and
builds one more for each tag that is new to them and offered by a route: that of the first offer in
the order of the nodes and of their routes. The new targets come in the order of those offers. -/
theorem targets_compile (o : Options) (nodes : List Node) (overrides : Override.Policy)
    (registry : Registry) :
    ∃ new, (o.compile nodes overrides registry).2.targets = registry.targets ++ new ∧
      (firstOffers registry (Node.entries nodes)).map Target.build = new.map .ok ∧
      ∀ tag, (new.map Target.tag).count tag =
        if !registry.contains tag && (Node.entries nodes).any fun entry => entry.2.offers tag
          then 1 else 0 := by
  refine ⟨(firstOffers registry (Node.entries nodes)).map Descriptor.target, ?_, ?_, ?_⟩
  · rw [compile_eq_run]
    exact State.targets_run _ _
  · rw [List.map_map]
    refine List.map_congr_left fun d hd => ?_
    obtain ⟨⟨entry, i⟩, -, hoffer⟩ := List.mem_filterMap.mp hd
    exact Route.build_of_newOffer? hoffer
  · intro tag
    rw [← count_firstOffers, List.map_map]
    rfl

/-- Neither the reference before the first description of `us` nor the description after it has a
say. -/
example : (firstOffers Registry.seeded
    [("a", ⟨none, "default_out", [], some "\x7b\"tag\":\"us\",\"protocol\":\"smoke\"\x7d"⟩),
     ("a", ⟨none, "default_out", [], some "\x7b\"tag\":\"us\",\"protocol\":\"VLESS\"\x7d"⟩),
     ("b", ⟨none, "default_out", [], some "\x7b\"tag\":\"us\",\"protocol\":\"trojan\"\x7d"⟩)]).map
    Descriptor.protocol = ["VLESS"] := by decide +kernel

end Routing

end EgressPolicy
