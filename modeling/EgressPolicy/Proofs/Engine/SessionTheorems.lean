import EgressPolicy.Engine.Session
import EgressPolicy.Proofs.Dns.DocumentTheorems
import EgressPolicy.Proofs.Engine.CompileTheorems
import EgressPolicy.Proofs.Json.FileTheorems
import EgressPolicy.Proofs.Override.PolicyTheorems

/-!
Sessions have no memory but the files, and a faulty file is as good as none.

Whatever happened before, a compilation answers what a new one answers that is given the latest
version of each file (`session_getElem?`). Where that version has a fault, of whatever kind and
wherever in the document, nothing of it is used (`compile_withoutDnsFile`,
`compile_withoutRouteFile`). `session_of_nodes` says both of every compilation in a session.
-/

namespace EgressPolicy.Engine

/-! ## Latest versions -/

/-- The version of the DNS document that an event brings. -/
def Event.dnsFile? : Event → Option File
  | .dnsFile file => some file
  | .routeFile _ | .nodes _ => none

def Event.routeFile? : Event → Option File
  | .routeFile file => some file
  | .dnsFile _ | .nodes _ => none

/-- The host with the latest version of each file, or the one that it had in the beginning. -/
def Host.latest (host : Host) (events : List Event) : Host :=
  { host with
    dnsFile := (events.filterMap Event.dnsFile?).getLastD host.dnsFile
    routeFile := (events.filterMap Event.routeFile?).getLastD host.routeFile }

/-- The first of some events makes the host on which the others happen. -/
theorem Host.latest_cons (host : Host) (event : Event) (rest : List Event) :
    host.latest (event :: rest) = (host.after event).latest rest := by
  cases event <;>
    simp only [latest, after, List.filterMap_cons, Event.dnsFile?, Event.routeFile?,
      List.getLastD_cons]

/-- **Sessions.** The answer to an event is that on a host which has only the latest version of each
file: what else happened before is forgotten. -/
theorem session_getElem? (settings : Settings) (host : Host) (events : List Event) (i : Nat) :
    (session settings host events)[i]? =
      events[i]?.map ((host.latest (events.take i)).answer settings) := by
  -- The host changes along the events, so the induction is over all hosts.
  induction events generalizing host i with
  | nil => simp [session]
  | cons event rest ih =>
    rw [session]
    cases i with
    | zero => rfl
    | succ i =>
      rw [List.getElem?_cons_succ, List.getElem?_cons_succ, List.take_succ_cons, Host.latest_cons]
      exact ih (host.after event) i

/-! ## Faulty files -/

/-- A DNS document with a fault is as good as none. -/
theorem compile_withoutDnsFile {host : Host} (h : host.dnsFile.IsRejected Dns.Document.Fits)
    (settings : Settings) (nodes : List Node) :
    compile settings host nodes = compile settings { host with dnsFile := .absent } nodes := by
  have hnone : host.dnsFile.usable? Dns.Document.ofText = none :=
    (File.usable?_decodeText_eq_none_iff Dns.Document.takes_ofTree host.dnsFile).mpr (Or.inr h)
  have hdns : Dns.Policy.resolve host.dnsFile settings.fallbackDns host.hasPublicIpv6 nodes =
      Dns.Policy.resolve .absent settings.fallbackDns host.hasPublicIpv6 nodes := by
    rw [Dns.Policy.resolve, Dns.Policy.resolve, Dns.Policy.base, Dns.Policy.base, hnone]
    rfl
  rw [compile, compile, hdns]

/-- Overrides with a fault are as good as none. -/
theorem compile_withoutRouteFile {host : Host} (h : host.routeFile.IsRejected Override.Policy.Fits)
    (settings : Settings) (nodes : List Node) :
    compile settings host nodes = compile settings { host with routeFile := .absent } nodes := by
  have hnone : host.routeFile.usable? Override.Policy.ofText = none :=
    (File.usable?_decodeText_eq_none_iff Override.Policy.takes_ofTree host.routeFile).mpr (Or.inr h)
  have hoverrides : Override.Policy.ofFile host.routeFile = Override.Policy.ofFile .absent := by
    rw [Override.Policy.ofFile, hnone]
    rfl
  rw [compile, compile, hoverrides]

/-- **A session and its files.** In every session, a compilation has the result of a single one on a
host with the latest version of each file. If that version of the DNS document has a fault, the
result is the same as if the document was deleted, whatever the overrides are; and the other way
round. The results compared are configurations and errors alike. -/
theorem session_of_nodes (settings : Settings) (host : Host) (events : List Event) (i : Nat)
    (nodes : List Node) (hevent : events[i]? = some (.nodes nodes)) :
    let latest := host.latest (events.take i)
    (session settings host events)[i]? = some (some (compile settings latest nodes)) ∧
    (latest.dnsFile.IsRejected Dns.Document.Fits → ∀ routeFile,
      compile settings { latest with routeFile } nodes =
        compile settings { latest with dnsFile := .absent, routeFile } nodes) ∧
    (latest.routeFile.IsRejected Override.Policy.Fits → ∀ dnsFile,
      compile settings { latest with dnsFile } nodes =
        compile settings { latest with dnsFile, routeFile := .absent } nodes) := by
  intro latest
  refine ⟨?_, ?_, ?_⟩
  · rw [session_getElem?, hevent]
    rfl
  · intro hdns routeFile
    have hdns' : ({ latest with routeFile } : Host).dnsFile.IsRejected Dns.Document.Fits := hdns
    exact compile_withoutDnsFile hdns' settings nodes
  · intro hroute dnsFile
    have hroute' : ({ latest with dnsFile } : Host).routeFile.IsRejected Override.Policy.Fits :=
      hroute
    exact compile_withoutRouteFile hroute' settings nodes

/-- A DNS document in which the second server is a number. -/
def brokenDocument : String := "\x7b\"servers\":[\"8.8.8.8\",7]\x7d"

/-- Overrides in which the second node number is a string. -/
def brokenOverrides : String := "\x7b\"block_cn_nodes\":[3,\"4\"]\x7d"

/-- A compilation with both files in order, and one after each was replaced by a broken version. -/
def breakingEvents : List Event :=
  [.routeFile (.ofText "\x7b\"block_cn_nodes\":[3]\x7d"),
   .dnsFile (.ofText "\x7b\"servers\":[\"8.8.8.8\"]\x7d"),
   .nodes [⟨3, "a", []⟩],
   .routeFile (.ofText brokenOverrides),
   .dnsFile (.ofText brokenDocument),
   .nodes [⟨3, "a", []⟩]]

theorem session_of_nodes_breaking :
    (session {} bareHost breakingEvents)[2]? ≠ (session {} bareHost breakingEvents)[5]? ∧
    (session {} bareHost breakingEvents)[5]? =
      some (some (compile {} bareHost [⟨3, "a", []⟩])) := by
  have hlatest : bareHost.latest (breakingEvents.take 5) =
      ⟨false, .ofText brokenDocument, .ofText brokenOverrides⟩ := rfl
  have hdocument : (File.ofText brokenDocument).IsRejected Dns.Document.Fits :=
    .unfit (File.text?_ofText brokenDocument) (Json.hasTree_iff.mpr ⟨by decide +kernel, rfl⟩)
      (Dns.Document.takes_ofTree.not_of_error (by decide +kernel))
  have hoverrides : (File.ofText brokenOverrides).IsRejected Override.Policy.Fits :=
    .unfit (File.text?_ofText brokenOverrides) (Json.hasTree_iff.mpr ⟨by decide +kernel, rfl⟩)
      (Override.Policy.takes_ofTree.not_of_error (by decide +kernel))
  -- Either file can be taken away while the other one is still broken.
  obtain ⟨hresult, hdns, hroute⟩ :=
    session_of_nodes {} bareHost breakingEvents 5 [⟨3, "a", []⟩] rfl
  rw [hlatest] at hresult hdns hroute
  refine ⟨by decide +kernel, ?_⟩
  rw [hresult, hdns hdocument, hroute hoverrides]
  rfl

end EgressPolicy.Engine
