import EgressPolicy.Dns.Policy
import EgressPolicy.Proofs.ExceptTheorems
import EgressPolicy.Proofs.Outbound.RegistryTheorems
import EgressPolicy.Proofs.Text.BlankTheorems

/-!
Which directive a route is accepted as.

`Route.directive?` forgets why a route is refused. `directive?_eq_some_iff` says what acceptance
means, action by action: the route names the action of the directive, and each part of the directive
passed the check that its action makes. What later proofs need of accepted routes, such as a tag or
a server address that is not blank, follows from there.
-/

namespace EgressPolicy

/-! ## Actions -/

/-- Actions are known by their names. -/
theorem Action.ofName?_eq_some_iff {name : String} {a : Action} :
    Action.ofName? name = some a ↔ name = a.name := by
  constructor
  · intro h
    exact (beq_iff_eq.mp (List.find?_some (p := fun a : Action => a.name == name) h)).symm
  · rintro rfl
    cases a <;> decide

/-! ## Accepted routes -/

/-- The directive of a route that is accepted. Unknown actions and refused routes have none. -/
def Route.directive? (r : Route) : Option Directive :=
  match Directive.ofRoute r with
  | .ok d => d
  | .error _ => none

theorem Route.directive?_eq_some_iff_ofRoute {r : Route} {d : Directive} :
    r.directive? = some d ↔ Directive.ofRoute r = .ok (some d) := by
  rw [directive?]
  cases Directive.ofRoute r <;> simp

/-- The outbound of a route that is accepted and names one. -/
def Route.outbound? (r : Route) : Option Outbound.Descriptor :=
  r.directive?.bind Directive.outbound?

/-- Each part of a directive passed the check of its action on a route. -/
def Directive.IsReadFrom (r : Route) : Directive → Prop
  | .dns server domains => r.requireValue .dns = .ok server ∧ r.cleanPatterns = domains
  | .block domains => r.requirePatterns .block = .ok domains
  | .blockIp ips => r.requirePatterns .blockIp = .ok ips
  | .blockPort ports => r.requirePorts = .ok ports
  | .protocol protocols => r.requirePatterns .protocol = .ok protocols
  | .route domains outbound =>
    r.requirePatterns .route = .ok domains ∧ r.requireOutbound .route = .ok outbound
  | .routeIp ips outbound =>
    r.requirePatterns .routeIp = .ok ips ∧ r.requireOutbound .routeIp = .ok outbound
  | .defaultOut outbound => r.requireOutbound .defaultOut = .ok outbound

theorem Directive.ofAction_eq_ok_iff {r : Route} {a : Action} {d : Directive} :
    Directive.ofAction r a = .ok d ↔ a = d.action ∧ d.IsReadFrom r := by
  cases a <;> cases d <;>
    simp [Directive.ofAction, Directive.action, Directive.IsReadFrom, bind_eq_ok_iff, pure,
      Except.pure]

/-- **Acceptance.** A route is accepted as a directive exactly when it names its action and gives
its parts. -/
theorem directive?_eq_some_iff {r : Route} {d : Directive} :
    r.directive? = some d ↔ r.action = d.action.name ∧ d.IsReadFrom r := by
  rw [Route.directive?_eq_some_iff_ofRoute, Directive.ofRoute]
  cases ha : Action.ofName? r.action with
  | none =>
    simp only [reduceCtorEq, Except.ok.injEq, false_iff, not_and]
    intro hname
    rw [Action.ofName?_eq_some_iff.mpr hname] at ha
    cases ha
  | some a =>
    have hname := Action.ofName?_eq_some_iff.mp ha
    simp only [map_eq_ok_iff, Option.some.injEq, exists_eq_right, Directive.ofAction_eq_ok_iff]
    constructor
    · rintro ⟨rfl, hread⟩
      exact ⟨hname, hread⟩
    · rintro ⟨hd, hread⟩
      rw [Action.ofName?_eq_some_iff.mpr hd] at ha
      exact ⟨(Option.some.inj ha).symm, hread⟩

/-! ## What acceptance promises -/

/-- The value that an action asks for is not blank. -/
theorem not_isBlankText_of_requireValue {r : Route} {a : Action} {value : String}
    (h : r.requireValue a = .ok value) : Text.isBlankText value = false := by
  rw [Route.requireValue] at h
  split at h
  · cases h
  · rename_i raw _
    split at h
    · cases h
    · rename_i hne
      obtain rfl := Except.ok.inj h
      rw [← Bool.not_eq_true, Text.isBlankText_trim_iff]
      exact hne

/-- The outbound of an accepted route is the descriptor of a text. -/
theorem exists_ofText_of_outbound? {r : Route} {d : Outbound.Descriptor}
    (h : r.outbound? = some d) : ∃ s, Outbound.Descriptor.ofText s = .ok d := by
  have hrequire : ∀ a, r.requireOutbound a = .ok d → ∃ s, Outbound.Descriptor.ofText s = .ok d := by
    intro a hd
    rw [Route.requireOutbound, bind_eq_ok_iff] at hd
    obtain ⟨value, -, hd⟩ := hd
    exact ⟨value, mapError_eq_ok_iff.mp hd⟩
  obtain ⟨directive, hdir, hout⟩ := Option.bind_eq_some_iff.mp h
  have hread := (directive?_eq_some_iff.mp hdir).2
  cases directive with
  | dns _ _ | block _ | blockIp _ | blockPort _ | protocol _ => cases hout
  | route domains outbound | routeIp ips outbound =>
    obtain rfl : outbound = d := Option.some.inj hout
    exact hrequire _ hread.2
  | defaultOut outbound =>
    obtain rfl : outbound = d := Option.some.inj hout
    exact hrequire _ hread

/-- The outbound of an accepted route has a tag that is not blank, so only its protocol can keep it
from being built. -/
theorem isNamed_of_outbound? {r : Route} {d : Outbound.Descriptor} (h : r.outbound? = some d) :
    d.isNamed = true := by
  obtain ⟨s, hs⟩ := exists_ofText_of_outbound? h
  exact (Outbound.Descriptor.ofText_eq_ok_iff.mp hs).2

/-! ## Name servers -/

/-- A route adds a name server exactly when it is accepted as one. -/
theorem serverOfRoute?_eq_some_iff {r : Route} {s : Dns.Server} :
    Dns.Policy.serverOfRoute? r = some s ↔
      ∃ server domains, r.directive? = some (.dns server domains) ∧
        s = { Dns.Server.ofAddress server with domains } := by
  rw [Dns.Policy.serverOfRoute?, Route.directive?]
  split
  · rename_i server domains h
    simp [h, eq_comm]
  · rename_i hno
    cases h : Directive.ofRoute r with
    | error e => simp
    | ok d =>
      simp only [false_iff, reduceCtorEq]
      rintro ⟨server, domains, hd, -⟩
      exact hno server domains (by rw [h, hd])

/-- The name servers of the panel have addresses that are not blank. -/
theorem not_isBlankText_of_serverOfRoute? {r : Route} {s : Dns.Server}
    (h : Dns.Policy.serverOfRoute? r = some s) : Text.isBlankText s.address = false := by
  obtain ⟨server, domains, hdir, rfl⟩ := serverOfRoute?_eq_some_iff.mp h
  exact not_isBlankText_of_requireValue (directive?_eq_some_iff.mp hdir).2.1

end EgressPolicy
