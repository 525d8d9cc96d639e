import EgressPolicy.Proofs.Directive.LayoutTheorems
import EgressPolicy.Proofs.Directive.PortTheorems
import EgressPolicy.Proofs.Outbound.ValueTheorems

/-!
Directives are normal forms.

What a route is accepted as has been cleaned, trimmed, joined and read. Written as a route again, in
the plainest form (`Directive.toRoute`), nothing is left to be done: every check of the plain route
gives the part that the check of the first route gave (`Directive.IsReadFrom.toRoute`), so the plain
route is the directive (`Directive.ofRoute_toRoute`). The outbound goes through its text, which is
read as the outbound where the numbers in it come back (`Outbound.Descriptor.ofText_text`).
-/

namespace EgressPolicy

open Json Json.Tree

/-! ## Texts of descriptors -/

/-- The text of an object has no blank at an end. -/
theorem Json.trim_text_object (ms : Members) : Text.trim (object ms).text = (object ms).text := by
  have hchars : (object ms).text.toList = '\x7b' :: (memberChars ms ++ ['\x7d']) := by
    rw [text, String.toList_ofList, chars]
  rw [← String.toList_inj, Text.toList_trim, hchars]
  refine Text.strip_of_ends (fun c hc => ?_) fun c hc => ?_
  · obtain rfl : '\x7b' = c := Option.some.inj hc
    rfl
  · rw [← List.cons_append, List.getLast?_concat] at hc
    obtain rfl : '\x7d' = c := Option.some.inj hc
    rfl

namespace Outbound.Descriptor

/-- **A descriptor that was read** is read again from its own text, where the numbers in it come
back. -/
theorem ofText_text {s : String} {d : Descriptor} (h : ofText s = .ok d)
    (hnumbers : ∀ n ∈ d.toJson.numbers, n.reread? = some n) : ofText d.toJson.text = .ok d := by
  have hkept := areKept_of_ofText h
  have hdistinct := hasDistinctKeys_toJson hkept some
  rw [ofValueBy_some] at hdistinct
  have hdenotes := denotes_text hdistinct (depth_toJson_le hkept) hnumbers
  exact (ofText_of_denotes hdenotes).mpr ⟨ofJson?_toJson hkept, (ofText_eq_ok_iff.mp h).2⟩

end Outbound.Descriptor

namespace Route

/-! ## Parts that are checked again -/

section

variable {r again : Route} {a b : Action}

/-- Clean patterns stay as they are. -/
theorem cleanPatterns_of_eq (h : again.patterns = r.cleanPatterns) :
    again.cleanPatterns = r.cleanPatterns := by
  refine List.map_injective_iff.mpr (fun _ _ => String.toList_injective) ?_
  rw [map_toList_cleanPatterns, h, map_toList_cleanPatterns, Text.cleaned_cleaned]

theorem requirePatterns_eq_ok_iff {patterns : List String} :
    r.requirePatterns a = .ok patterns ↔ r.cleanPatterns ≠ [] ∧ r.cleanPatterns = patterns := by
  rw [requirePatterns]
  split <;> simp [*]

theorem requirePatterns_again {patterns : List String} (h : r.requirePatterns a = .ok patterns)
    (hagain : again.patterns = patterns) : again.requirePatterns b = .ok patterns := by
  obtain ⟨hne, rfl⟩ := requirePatterns_eq_ok_iff.mp h
  have hsame := cleanPatterns_of_eq hagain
  exact requirePatterns_eq_ok_iff.mpr ⟨hsame ▸ hne, hsame⟩

theorem requireValue_eq_ok_iff {value : String} :
    r.requireValue a = .ok value ↔ value ≠ "" ∧ r.value.map Text.trim = some value := by
  unfold requireValue
  cases r.value with
  | none => simp
  | some raw =>
    rw [Option.map_some, Option.some.injEq]
    dsimp only
    split
    · rename_i hempty
      rw [hempty]
      exact ⟨nofun, fun h => absurd h.2.symm h.1⟩
    · rename_i hne
      rw [Except.ok.injEq]
      exact ⟨fun h => ⟨h ▸ hne, h⟩, And.right⟩

/-- The value of a check has been trimmed. -/
theorem requireValue_again {value : String} (h : r.requireValue a = .ok value)
    (hagain : again.value = some value) : again.requireValue b = .ok value := by
  obtain ⟨hne, htrim⟩ := requireValue_eq_ok_iff.mp h
  obtain ⟨raw, -, rfl⟩ := Option.map_eq_some_iff.mp htrim
  refine requireValue_eq_ok_iff.mpr ⟨hne, ?_⟩
  rw [hagain, Option.map_some, Text.trim_trim]

/-- The items of a port list are the items of its text. -/
theorem requirePorts_again {ports : String} (h : r.requirePorts = .ok ports)
    (hagain : again.patterns = [ports]) : again.requirePorts = .ok ports := by
  rw [requirePorts_eq] at h ⊢
  obtain ⟨-, -, rfl⟩ := Ports.checked_eq_ok_iff.mp h
  rw [hagain, Ports.items_text, h]

theorem requireOutbound_again {d : Outbound.Descriptor} (h : r.requireOutbound a = .ok d)
    (hnumbers : ∀ n ∈ d.toJson.numbers, n.reread? = some n)
    (hagain : again.value = some d.toJson.text) : again.requireOutbound b = .ok d := by
  rw [requireOutbound, bind_eq_ok_iff] at h
  obtain ⟨value, -, hread⟩ := h
  have htext := Outbound.Descriptor.ofText_text (mapError_eq_ok_iff.mp hread) hnumbers
  have hvalue : again.requireValue b = .ok d.toJson.text := by
    refine requireValue_eq_ok_iff.mpr ⟨fun hempty => ?_, ?_⟩
    · -- The empty text is no descriptor.
      rw [hempty] at htext
      cases htext
    · rw [hagain, Option.map_some, Outbound.Descriptor.toJson_eq, trim_text_object]
  rw [requireOutbound, bind_eq_ok_iff]
  exact ⟨_, hvalue, mapError_eq_ok_iff.mpr htext⟩

end

end Route

namespace Directive

/-! ## Plain routes -/

/-- The parts of a directive pass the checks of its action on its plain route. -/
theorem IsReadFrom.toRoute {r : Route} {d : Directive} (h : d.IsReadFrom r)
    (hnumbers : ∀ outbound, d.outbound? = some outbound →
      ∀ n ∈ outbound.toJson.numbers, n.reread? = some n) : d.IsReadFrom d.toRoute := by
  cases d with
  | dns server domains =>
    exact ⟨Route.requireValue_again h.1 rfl,
      (Route.cleanPatterns_of_eq h.2.symm).trans h.2⟩
  | block _ | blockIp _ | protocol _ => exact Route.requirePatterns_again h rfl
  | blockPort _ => exact Route.requirePorts_again h rfl
  | route _ outbound | routeIp _ outbound =>
    exact ⟨Route.requirePatterns_again h.1 rfl,
      Route.requireOutbound_again h.2 (hnumbers outbound rfl) rfl⟩
  | defaultOut outbound => exact Route.requireOutbound_again h (hnumbers outbound rfl) rfl

/-- **Normal forms.** A route that is accepted as a directive names the action of the directive. And
the plain route of the directive is accepted as the same directive, where the numbers of the
outbound in it, if there is one, are read as they are written. -/
theorem ofRoute_toRoute {r : Route} {d : Directive} (h : ofRoute r = .ok (some d)) :
    r.action = d.action.name ∧
    ((∀ outbound, d.outbound? = some outbound →
      ∀ n ∈ outbound.toJson.numbers, n.reread? = some n) → ofRoute d.toRoute = .ok (some d)) := by
  obtain ⟨haction, hread⟩ := directive?_eq_some_iff.mp (Route.directive?_eq_some_iff_ofRoute.mpr h)
  refine ⟨haction, fun hnumbers => Route.directive?_eq_some_iff_ofRoute.mp ?_⟩
  exact directive?_eq_some_iff.mpr ⟨rfl, hread.toRoute hnumbers⟩

/-- A route with blanks around its parts, a blank pattern, and an outbound with members of its
own. -/
def unpolished : Route :=
  ⟨some 7, "route_ip", [" 192.0.2.1", "\t"],
    some " \x7b\"settings\":\x7b\"port\":443,\"keys\":[null]\x7d, \"tag\": \"us\"\x7d"⟩

/-- What it is accepted as. -/
def polished : Directive :=
  .routeIp ["192.0.2.1"]
    ⟨"us", "", [("settings", .object
      [("keys", .array [.null]), ("port", .number (.integer 443))])]⟩

theorem ofRoute_toRoute_polished : ofRoute unpolished = .ok (some polished) ∧
    unpolished.action = polished.action.name ∧ ofRoute polished.toRoute = .ok (some polished) := by
  have haccepted : ofRoute unpolished = .ok (some polished) := by decide +kernel
  obtain ⟨haction, hagain⟩ := ofRoute_toRoute haccepted
  refine ⟨haccepted, haction, hagain ?_⟩
  rintro _ ⟨⟩
  decide +kernel

end Directive

end EgressPolicy
