import EgressPolicy.Proofs.Override.LegacyTheorems
import EgressPolicy.Proofs.Routing.BatchTheorems
import Mathlib.Data.Set.Subsingleton

/-!
What the older schema does to a table.

A compilation asks the overrides for the strategy and, node by node, whether the node is blocked
(`compile_congr`). Without the older schema that is a matter of the block list alone, so the lists
of the older schema may be anything. With it more nodes may be blocked and no node is set free
(`sublist_blockRules`), and nothing else of the table or the registry changes (`compile_legacy`).
-/

namespace EgressPolicy.Routing

open Outbound (Registry)
open Override (NamesPort NamesSuffix)

/-- **What is asked of the overrides** is the strategy and which of the nodes are blocked. -/
theorem compile_congr {o : Options} {nodes : List Node} {p q : Override.Policy}
    (hstrategy : p.strategy = q.strategy)
    (hblocks : ∀ n ∈ nodes, p.blocks n o.legacy = q.blocks n o.legacy) (registry : Registry) :
    o.compile nodes p registry = o.compile nodes q registry := by
  refine Prod.ext ?_ ?_
  · rw [compile_table, compile_table, hstrategy, List.filter_congr hblocks]
  · rw [registry_compile, registry_compile]

/-- **More block rules**, and the ones that were there among them in their order. -/
theorem sublist_blockRules (source : String) (p : Override.Policy) (nodes : List Node) :
    ((⟨source, false⟩ : Options).blockRules p nodes).toList.Sublist
      ((⟨source, true⟩ : Options).blockRules p nodes).toList := by
  have hmore : (nodes.filter (p.blocks · false)).Sublist (nodes.filter (p.blocks · true)) := by
    refine List.monotone_filter_right nodes fun n hn => ?_
    rw [Override.Policy.blocks_iff] at hn ⊢
    rcases hn with hlisted | ⟨hoff, -⟩
    · exact Or.inl hlisted
    · cases hoff
  rw [toList_blockRules, toList_blockRules]
  exact (hmore.map _).reverse

/-- **The older schema.** A node is blocked where the block list has it and, if the older schema
counts, where its tag names one of the ports or ends with one of the suffixes; no tag names two
ports. A table that is compiled without the older schema is the same for any lists of it. With the
older schema the registry, the rule for name queries and the rules of the panel are the same, and
the block rules are those without it and perhaps more. -/
theorem compile_legacy (p : Override.Policy) :
    (∀ n legacy, p.blocks n legacy = true ↔ n.id ∈ p.blocked ∨ legacy = true ∧
      ((∃ port ∈ p.legacyPorts, NamesPort n.tag port.toInt) ∨
        ∃ suffix ∈ p.legacySuffixes, NamesSuffix n.tag suffix)) ∧
    (∀ tag, {port | Override.Policy.portMatches tag port = true}.Subsingleton) ∧
    ∀ source nodes registry,
      let off : Options := ⟨source, false⟩
      let on : Options := ⟨source, true⟩
      let panel := panelRules registry (Node.entries nodes)
      (∀ ports suffixes,
        off.compile nodes { p with legacyPorts := ports, legacySuffixes := suffixes } registry =
          off.compile nodes p registry) ∧
      (off.compile nodes p registry).1 =
        ⟨p.strategy, (off.blockRules p nodes).toList ++ [Rule.dnsHijack] ++ panel⟩ ∧
      (on.compile nodes p registry).1 =
        ⟨p.strategy, (on.blockRules p nodes).toList ++ [Rule.dnsHijack] ++ panel⟩ ∧
      (off.blockRules p nodes).toList.Sublist (on.blockRules p nodes).toList ∧
      (on.compile nodes p registry).2 = (off.compile nodes p registry).2 := by
  refine ⟨fun n legacy => Override.Policy.blocks_iff, fun tag a ha b hb => ?_, ?_⟩
  · have hsame := (Override.Policy.portMatches_iff.mp ha).unique
      (Override.Policy.portMatches_iff.mp hb)
    exact Int64.toInt_inj.mp hsame
  · intro source nodes registry off on panel
    refine ⟨fun ports suffixes => compile_congr rfl (fun _ _ => rfl) registry, ?_, ?_,
      sublist_blockRules source p nodes, ?_⟩
    · rw [compile_table, toList_blockRules]
    · rw [compile_table, toList_blockRules]
    · rw [registry_compile, registry_compile]

end EgressPolicy.Routing
