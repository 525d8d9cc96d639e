import EgressPolicy.Proofs.Dns.AdoptionTheorems
import EgressPolicy.Proofs.Json.TextTheorems

/-!
Resolving a DNS section again.

The section for the engine is itself a DNS document (`ofTree_ofValue_toJson`), and whoever adopts it
gets the policy back that it came from, whatever the fallback server and the host
(`resolve_of_holds_toJson`): nothing in it is left to be chosen any more.
-/

namespace EgressPolicy.Dns

open Json Json.Tree

namespace Policy

variable {p : Policy}

/-- A policy that is written as a value is read as the document that says the same. -/
theorem ofTree_ofValue_toJson (h : p.toDocument.IsKept) :
    Document.ofTree (Tree.ofValue p.toJson) = .ok p.toDocument := by
  have hdistinct := hasDistinctKeys_toJson h some
  rw [ofValueBy_some] at hdistinct
  have hvalue := Tree.value?_ofValue p.toJson (depth_toJson_le h)
  have hread := Document.follows_ofTree _ _ hdistinct hvalue
  rw [documentOfJson?_toJson h, toOption_eq_some_iff] at hread
  exact hread

/-- The document of a policy chooses everything, so that adopting it gives the policy. -/
theorem adopt_toDocument (p : Policy) (hostStrategy : QueryStrategy) :
    adopt p.toDocument hostStrategy = p := rfl

/-- Resolving a file that holds a policy gives the policy, where no node adds a server. -/
theorem resolve_of_holds_toJson (h : p.toDocument.IsKept) {file : File}
    (hfile : file.Holds p.toJson.normal) (fallback : String) (hasPublicIpv6 : Bool) :
    resolve file fallback hasPublicIpv6 [] = p := by
  have husable : file.usable? Document.ofText = some p.toDocument := by
    rw [Document.usable?_of_holds hfile, documentOfJson?_toJson h]
  rw [resolve, base, husable]
  simp only [adopt_toDocument]
  rw [show panelServers [] = [] from rfl, List.append_nil]

end Policy

/-- **The fixed point.** What a policy is written as is a DNS document: it is decoded as one, and
any file that holds it is resolved as the same policy, with any fallback server and on any host. Its
own text is such a file where its numbers come back. -/
theorem resolve_of_toJson_resolve (file : File) (fallback : String) (hasPublicIpv6 : Bool)
    (nodes : List Node) :
    let p := Policy.resolve file fallback hasPublicIpv6 nodes
    IsDocument p.toJson.normal ∧
    Document.ofTree (Tree.ofValue p.toJson) = .ok ⟨p.servers, some p.strategy, p.extra⟩ ∧
    (∀ again : File, again.Holds p.toJson.normal →
      (again.usable? Document.ofText).isSome = true ∧
      ∀ fallback' hasPublicIpv6', Policy.resolve again fallback' hasPublicIpv6' [] = p) ∧
    ((∀ n ∈ p.toJson.numbers, n.reread? = some n) →
      (File.ofText p.toJson.text).Holds p.toJson.normal) := by
  intro p
  have hkept : p.toDocument.IsKept := Policy.isKept_resolve file fallback hasPublicIpv6 nodes
  have hread := Policy.documentOfJson?_toJson hkept
  refine ⟨Document.exists_ofJson?_iff.mp ⟨_, hread⟩, Policy.ofTree_ofValue_toJson hkept, ?_, ?_⟩
  · intro again hagain
    refine ⟨?_, Policy.resolve_of_holds_toJson hkept hagain⟩
    rw [Document.usable?_of_holds hagain, hread]
    rfl
  · intro hnumbers
    have hdistinct := Policy.hasDistinctKeys_toJson hkept some
    rw [ofValueBy_some] at hdistinct
    exact File.holds_ofText_iff.mpr
      (denotes_text hdistinct (Policy.depth_toJson_le hkept) hnumbers)

theorem resolve_of_toJson_resolve_mixed :
    let p := Policy.resolve (File.ofText mixedText) "9.9.9.9" true []
    (File.ofText p.toJson.text).Holds p.toJson.normal ∧ p.servers.length = 2 ∧
      Policy.resolve (File.ofText p.toJson.text) "8.8.4.4" false [] = p := by
  intro p
  have hfixed := resolve_of_toJson_resolve (File.ofText mixedText) "9.9.9.9" true []
  have hnumbers : ∀ n ∈ p.toJson.numbers, n.reread? = some n := by
    decide +kernel
  have hholds := hfixed.2.2.2 hnumbers
  refine ⟨hholds, by decide +kernel, (hfixed.2.2.1 _ hholds).2 "8.8.4.4" false⟩

end EgressPolicy.Dns
