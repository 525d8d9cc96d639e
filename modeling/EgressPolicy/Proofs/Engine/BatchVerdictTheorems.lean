import EgressPolicy.Proofs.Engine.VerdictTheorems
import EgressPolicy.Proofs.Routing.BatchTheorems
import EgressPolicy.Proofs.Routing.ReachableTheorems

/-!
The verdict on batches that are compiled one after the other, from any registry.

Without the builtin outbounds a compiled table can be refused, but only for one of two tags: a rule
of the panel names an outbound that is registered by then, so what may be missing is the outbound
that blocks or the one for name queries (`outboundTag_of_mem_compile`). A route of the panel can
register either of them, before or behind the rules to it and in a later batch as well; the registry
after the batch decides, and it only grows (`isWithin_afterAll`). `checkRouting_of_batches` puts
this together.
-/

namespace EgressPolicy

open Outbound (Registry Target)

namespace Routing

/-! ## Batches -/

/-- Nodes that are compiled together, and how. -/
structure Batch where
  options : Options
  nodes : List Node
  overrides : Override.Policy

namespace Batch

def compile (b : Batch) (registry : Registry) : Table × Registry :=
  b.options.compile b.nodes b.overrides registry

/-- The registry after some batches, one after the other. -/
def afterAll (start : Registry) (batches : List Batch) : Registry :=
  batches.foldl (fun registry b => (b.compile registry).2) start

theorem isReachable_compile {registry : Registry} (h : IsReachable registry) (b : Batch) :
    IsReachable (b.compile registry).2 :=
  h.after (.compile b.options b.nodes b.overrides)

theorem isReachable_afterAll : ∀ (batches : List Batch) {start : Registry}, IsReachable start →
    IsReachable (afterAll start batches)
  | [], _, h => h
  | b :: rest, _, h => isReachable_afterAll rest (isReachable_compile h b)

theorem isWithin_compile (b : Batch) (registry : Registry) :
    registry.IsWithin (b.compile registry).2 := by
  unfold compile
  rw [registry_compile]
  exact isWithin_registryAfter registry (Node.entries b.nodes)

/-- A tag that is there stays. -/
theorem isWithin_afterAll : ∀ (batches : List Batch) (start : Registry),
    start.IsWithin (afterAll start batches)
  | [], _, _, htag => htag
  | b :: rest, start, tag, htag =>
    isWithin_afterAll rest (b.compile start).2 tag (isWithin_compile b start tag htag)

end Batch

/-! ## What rules refer to -/

/-- An outbound that is available in the first part of a run is registered after the run. -/
theorem contains_of_isAvailable {start : Registry} {entries : List (String × Route)} {n : Nat}
    {r : Route} {d : Outbound.Descriptor} (hout : r.outbound? = some d)
    (h : r.isAvailable start (entries.take n) = true) :
    (registryAfter start entries).contains d.tag = true := by
  simp only [Route.isAvailable, hout, Bool.or_eq_true] at h
  rw [contains_registryAfter, Bool.or_eq_true]
  refine h.imp_right fun hany => ?_
  obtain ⟨entry, hentry, hoffers⟩ := List.any_eq_true.mp hany
  exact List.any_eq_true.mpr ⟨entry, List.mem_of_mem_take hentry, hoffers⟩

/-- The rule for name queries is in every table. -/
theorem dnsHijack_mem_compile (o : Options) (nodes : List Node) (overrides : Override.Policy)
    (registry : Registry) : Rule.dnsHijack ∈ (o.compile nodes overrides registry).1.rules := by
  rw [rules_compile]
  simp

/-- A rule that does not block and is not the one for name queries has its outbound. -/
theorem outboundTag_of_mem_compile {o : Options} {nodes : List Node} {overrides : Override.Policy}
    {registry : Registry} {rule : Rule}
    (h : rule ∈ (o.compile nodes overrides registry).1.rules) :
    rule.outboundTag = Target.blockTag ∨ rule.outboundTag = Target.dnsTag ∨
      (o.compile nodes overrides registry).2.contains rule.outboundTag = true := by
  rw [rules_compile] at h
  simp only [List.mem_append, List.mem_singleton, panelRules, List.mem_filterMap] at h
  rcases h with (hblock | rfl) | ⟨⟨entry, i⟩, -, hrule⟩
  · exact Or.inl (outboundTag_of_mem_blockRules hblock)
  · exact Or.inr (Or.inl rfl)
  · split at hrule
    · rename_i havailable
      cases hout : entry.2.outbound? with
      | none => exact Or.inl (Route.outboundTag_of_rule? hrule hout)
      | some d =>
        obtain ⟨rule', hrule', htag⟩ := Route.exists_rule?_of_outbound? entry.1 hout
        obtain rfl : rule' = rule := Option.some.inj (hrule'.symm.trans hrule)
        rw [registry_compile, htag]
        exact Or.inr (Or.inr (contains_of_isAvailable hout havailable))
    · cases hrule

end Routing

namespace Engine

open Routing (Batch IsReachable)

/-- A compiled table is taken when the outbound for name queries is there, and the one that blocks
if a rule refers to it. -/
theorem checkRouting_compile_eq_ok_iff (o : Routing.Options) (nodes : List Node)
    (overrides : Override.Policy) (registry : Registry) :
    let result := o.compile nodes overrides registry
    checkRouting result.1 result.2 = .ok () ↔
      result.2.contains Target.dnsTag = true ∧
        ((∃ rule ∈ result.1.rules, rule.outboundTag = Target.blockTag) →
          result.2.contains Target.blockTag = true) := by
  intro result
  rw [checkRouting_eq_ok_iff fun _ => hasCondition_of_mem_compile]
  constructor
  · intro h
    refine ⟨h _ (Routing.dnsHijack_mem_compile o nodes overrides registry), ?_⟩
    rintro ⟨rule, hrule, htag⟩
    rw [← htag]
    exact h rule hrule
  · intro h rule hrule
    rcases Routing.outboundTag_of_mem_compile hrule with htag | htag | hthere
    · rw [htag]
      exact h.2 ⟨rule, hrule, htag⟩
    · rw [htag]
      exact h.1
    · exact hthere

/-- A compiled table is refused for the first rule that lacks its outbound, and what it lacks is the
outbound that blocks or the one for name queries. -/
theorem exists_split_of_checkRouting_compile {o : Routing.Options} {nodes : List Node}
    {overrides : Override.Policy} {registry : Registry} {e : Rejection} :
    let result := o.compile nodes overrides registry
    checkRouting result.1 result.2 = .error e →
      ∃ front rule back, result.1.rules = front ++ rule :: back ∧
        (∀ other ∈ front, result.2.contains other.outboundTag = true) ∧
        result.2.contains rule.outboundTag = false ∧
        (rule.outboundTag = Target.blockTag ∨ rule.outboundTag = Target.dnsTag) ∧
        e = .unknownOutbound front.length rule.outboundTag := by
  intro result h
  obtain ⟨front, rule, back, hrules, hfront, habsent, he⟩ :=
    exists_split_of_checkRouting (fun _ => hasCondition_of_mem_compile) h
  have hrule : rule ∈ result.1.rules := by
    rw [hrules]
    exact List.mem_append_right front List.mem_cons_self
  refine ⟨front, rule, back, hrules, hfront, habsent, ?_, he⟩
  rcases Routing.outboundTag_of_mem_compile hrule with htag | htag | hthere
  · exact Or.inl htag
  · exact Or.inr htag
  · exact absurd (habsent.symm.trans hthere) Bool.false_ne_true

/-- A table that is taken with a registry is taken with one that has grown. -/
theorem checkRouting_of_isWithin {t : Routing.Table} {registry later : Registry}
    (hcond : ∀ rule ∈ t.rules, ¬ (rule.matcher = none ∧ rule.network = none))
    (hwithin : registry.IsWithin later) (h : checkRouting t registry = .ok ()) :
    checkRouting t later = .ok () := by
  rw [checkRouting_eq_ok_iff hcond] at h ⊢
  exact fun rule hrule => hwithin rule.outboundTag (h rule hrule)

/-- **The verdict on batches.** Batches are compiled one after the other, from any registry that can
come about. The table of a batch is taken with the registry after it exactly when the outbound for
name queries is in that registry and the one that blocks is, if a rule refers to it. Otherwise the
first rule whose outbound is not there is reported, and the tag is one of these two. No rule is
reported to have no condition. A table that is taken is taken after any later batches too. -/
theorem checkRouting_of_batches {start : Registry} (h : IsReachable start)
    (earlier : List Batch) (batch : Batch) :
    let result := batch.compile (Batch.afterAll start earlier)
    let table := result.1
    let registry := result.2
    (checkRouting table registry = .ok () ↔
      Target.dnsTag ∈ registry.tags ∧
        ((∃ rule ∈ table.rules, rule.outboundTag = Target.blockTag) →
          Target.blockTag ∈ registry.tags)) ∧
    (checkRouting table registry ≠ .ok () →
      ∃ front rule back, table.rules = front ++ rule :: back ∧
        (∀ other ∈ front, other.outboundTag ∈ registry.tags) ∧
        rule.outboundTag ∉ registry.tags ∧
        (rule.outboundTag = Target.blockTag ∨ rule.outboundTag = Target.dnsTag) ∧
        checkRouting table registry =
          .error (.unknownOutbound front.length rule.outboundTag)) ∧
    (∀ index, checkRouting table registry ≠ .error (.ruleWithoutCondition index)) ∧
    (checkRouting table registry = .ok () → ∀ later : List Batch,
      checkRouting table (Batch.afterAll registry later) = .ok ()) := by
  intro result table registry
  have hreach : IsReachable registry :=
    Batch.isReachable_compile (Batch.isReachable_afterAll earlier h) batch
  have hindexed := hreach.isConsistent.indexed
  have hok : checkRouting table registry = .ok () ↔ _ :=
    checkRouting_compile_eq_ok_iff batch.options batch.nodes batch.overrides
      (Batch.afterAll start earlier)
  refine ⟨?_, ?_, ?_, ?_⟩
  · rw [← hindexed Target.dnsTag, ← hindexed Target.blockTag]
    exact hok
  · intro hne
    cases hverdict : checkRouting table registry with
    | ok u => exact absurd hverdict hne
    | error e =>
      obtain ⟨front, rule, back, hrules, hfront, habsent, htag, rfl⟩ :=
        exists_split_of_checkRouting_compile hverdict
      refine ⟨front, rule, back, hrules, ?_, ?_, htag, rfl⟩
      · intro other hother
        exact (hindexed other.outboundTag).mp (hfront other hother)
      · intro hmem
        have hthere := (hindexed rule.outboundTag).mpr hmem
        exact absurd (habsent.symm.trans hthere) Bool.false_ne_true
  · intro index hverdict
    obtain ⟨front, rule, back, -, -, -, -, he⟩ := exists_split_of_checkRouting_compile hverdict
    cases he
  · intro hverdict later
    exact checkRouting_of_isWithin (fun _ => hasCondition_of_mem_compile)
      (Batch.isWithin_afterAll later registry) hverdict

/-- A batch of a blocked node that describes the outbound that blocks, behind a rule to it. -/
def sinking : Batch :=
  ⟨{}, [⟨3, "a", [⟨none, "block_port", ["53"], none⟩,
    ⟨none, "default_out", [], some "\x7b\"tag\":\"block\",\"protocol\":\"blackhole\"\x7d"⟩]⟩],
    Routing.blockingBoth⟩

/-- A batch that describes the outbound for name queries and drops traffic as well. -/
def answering : Batch :=
  ⟨{}, [⟨7, "b", [⟨none, "protocol", ["bittorrent"], none⟩,
    ⟨none, "route_ip", ["10.0.0.53"], some "\x7b\"tag\":\"dns_out\",\"protocol\":\"DNS\"\x7d"⟩]⟩],
    .default⟩

/-- From nothing, the first batch lacks the outbound for name queries. The second brings it and
finds the one that blocks, and its table stays good. -/
theorem checkRouting_of_batches_unseeded :
    let first := sinking.compile Registry.empty
    let second := answering.compile first.2
    IsReachable Registry.empty ∧
    (∃ index, checkRouting first.1 first.2 = .error (.unknownOutbound index "dns_out")) ∧
    checkRouting second.1 second.2 = .ok () ∧
    checkRouting second.1 (Batch.afterAll second.2 [sinking]) = .ok () := by
  intro first second
  obtain ⟨hok₁, hfault₁, -, -⟩ := checkRouting_of_batches .empty [] sinking
  obtain ⟨hok₂, -, -, hlater₂⟩ := checkRouting_of_batches .empty [sinking] answering
  have hblock : Target.blockTag ∈ first.2.tags := by decide +kernel
  have hdns : Target.dnsTag ∉ first.2.tags := by decide +kernel
  obtain ⟨front, rule, back, -, -, habsent, htag, hverdict⟩ :=
    hfault₁ fun hok => hdns (hok₁.mp hok).1
  have htaken : checkRouting second.1 second.2 = .ok () :=
    hok₂.mpr ⟨by decide +kernel, fun _ => by decide +kernel⟩
  refine ⟨.empty, ⟨front.length, ?_⟩, htaken, hlater₂ htaken [sinking]⟩
  rcases htag with htag | htag
  · rw [htag] at habsent
    exact absurd hblock habsent
  · rw [htag] at hverdict
    exact hverdict

end Engine

end EgressPolicy
