import EgressPolicy.Proofs.Json.DenotationTheorems
import EgressPolicy.Routing.Table

/-!
Routing tables as values.

A rule puts its inbounds, its outbound, its matcher and its transports into one object, and leaves
out what it does not say. No two of them share a key (`Rule.get?_members`), so each is found again,
and rules and tables can be read back from what they are written as (`Rule.ofJson?_toJson`,
`Table.ofJson?_toJson`).
-/

namespace EgressPolicy.Routing

open Json Json.Tree

/-! ## Rules -/

namespace Matcher

/-- The keys of matchers, each with the way its matcher is read. -/
def kinds : List (String × (Json → Option Matcher)) :=
  [("domain", fun v => (asListOf? asString? v).map domains),
   ("ip", fun v => (asListOf? asString? v).map ips),
   ("port", fun v => (asString? v).map ports),
   ("protocol", fun v => (asListOf? asString? v).map protocols),
   ("source", fun v => (asListOf? asString? v).map sources)]

/-- The matcher among the members of an object. -/
def ofMembers? (ms : Members) : Option Matcher :=
  kinds.findSome? fun kind => (Members.get? ms kind.1).bind kind.2

/-- Matchers have keys of their own. -/
theorem key_ne (m : Matcher) :
    m.member.1 ≠ "inboundTag" ∧ m.member.1 ≠ "outboundTag" ∧ m.member.1 ≠ "network" := by
  cases m <;> simp [member]

/-- Under the other keys of a rule there is no matcher. -/
theorem lookup_eq_none {key : String}
    (hkey : key = "inboundTag" ∨ key = "outboundTag" ∨ key = "network") (matcher : Option Matcher) :
    ((matcher.map member).bind fun m => if key = m.1 then some m.2 else none) = none := by
  cases matcher with
  | none => rfl
  | some m =>
    obtain ⟨hne₁, hne₂, hne₃⟩ := m.key_ne
    rcases hkey with rfl | rfl | rfl
    · exact if_neg hne₁.symm
    · exact if_neg hne₂.symm
    · exact if_neg hne₃.symm

theorem normal_member (m : Matcher) : m.member.2.normal = m.member.2 := by
  cases m with
  | domains texts | ips texts | protocols texts | sources texts => exact normal_ofStrings texts
  | ports _ => rfl

end Matcher

namespace Rule

def members (r : Rule) : Members :=
  (if r.inboundTags = [] then [] else [("inboundTag", Json.ofStrings r.inboundTags)]) ++
    [("outboundTag", .string r.outboundTag)] ++
    (match r.matcher with
      | some matcher => [matcher.member]
      | none => []) ++
    (match r.network with
      | some network => [("network", .string network)]
      | none => [])

theorem toJson_eq (r : Rule) : r.toJson = .object r.members := rfl

/-- **One object** for all parts of a rule: each is found under its key, and nothing else is. -/
theorem get?_members (r : Rule) (key : String) :
    Members.get? r.members key =
      if key = "inboundTag" then
        if r.inboundTags = [] then none else some (Json.ofStrings r.inboundTags)
      else if key = "outboundTag" then some (.string r.outboundTag)
      else if key = "network" then r.network.map .string
      else (r.matcher.map Matcher.member).bind fun m => if key = m.1 then some m.2 else none := by
  obtain ⟨inboundTags, outboundTag, matcher, network⟩ := r
  have hinbound : Members.get?
      (if inboundTags = [] then [] else [("inboundTag", Json.ofStrings inboundTags)]) key =
        if key = "inboundTag" then
          if inboundTags = [] then none else some (Json.ofStrings inboundTags)
        else none := by
    by_cases h : inboundTags = []
    · simp [h, Members.get?]
    · rw [if_neg h, if_neg h, Members.get?_singleton]
  have hnetwork : Members.get? (match network with
      | some network => [("network", Json.string network)]
      | none => []) key = if key = "network" then network.map .string else none := by
    cases network with
    | none => simp [Members.get?]
    | some network => rw [Members.get?_singleton, Option.map_some]
  have hmatcher : Members.get? (match matcher with
      | some matcher => [matcher.member]
      | none => []) key =
        (matcher.map Matcher.member).bind fun m => if key = m.1 then some m.2 else none := by
    cases matcher with
    | none => rfl
    | some m => exact Members.get?_singleton m.member.1 m.member.2 key
  simp only [members, Members.get?_append, hinbound, Members.get?_singleton, hmatcher, hnetwork]
  by_cases h₁ : key = "inboundTag"
  · rw [Matcher.lookup_eq_none (Or.inl h₁)]
    simp [h₁]
  · by_cases h₂ : key = "outboundTag"
    · simp [h₂]
    · by_cases h₃ : key = "network"
      · rw [Matcher.lookup_eq_none (Or.inr (Or.inr h₃))]
        simp [h₃]
      · simp [h₁, h₂, h₃]

theorem nodup_members (r : Rule) : (Members.keys r.members).Nodup := by
  obtain ⟨inboundTags, outboundTag, matcher, network⟩ := r
  by_cases hempty : inboundTags = [] <;> cases matcher with
  | none => cases network <;> simp [members, Members.keys, hempty]
  | some m =>
    obtain ⟨hne₁, hne₂, hne₃⟩ := m.key_ne
    cases network <;> simp [members, Members.keys, hempty, hne₃, hne₁.symm, hne₂.symm]

def ofJson? : Json → Option Rule
  | .object ms => do
    let inboundTags ← Members.field? "inboundTag" (asListOf? asString?) ms
    let outboundTag ← (Members.get? ms "outboundTag").bind asString?
    let network ← Members.field? "network" asString? ms
    return ⟨inboundTags.getD [], outboundTag, Matcher.ofMembers? ms, network⟩
  | .null | .bool _ | .number _ | .string _ | .array _ => none

/-- **Reading undoes writing.** -/
theorem ofJson?_toJson (r : Rule) : ofJson? r.toJson.normal = some r := by
  have hget := Members.get?_normal r.nodup_members
  rw [toJson_eq, normal_object]
  generalize Members.ofList (r.members.map fun m => (m.1, m.2.normal)) = ms at hget ⊢
  have hinbound : Members.field? "inboundTag" (asListOf? asString?) ms =
      some (if r.inboundTags = [] then none else some r.inboundTags) := by
    rw [Members.field?, hget, get?_members, if_pos rfl]
    by_cases h : r.inboundTags = []
    · rw [if_pos h, if_pos h]
      rfl
    · rw [if_neg h, if_neg h, Option.map_some, normal_ofStrings]
      simp only [asListOf?_ofStrings]
      rfl
  have houtbound : (Members.get? ms "outboundTag").bind asString? = some r.outboundTag := by
    rw [hget, get?_members, if_neg (by decide), if_pos rfl]
    rfl
  have hnetwork : Members.field? "network" asString? ms = some r.network := by
    rw [Members.field?, hget, get?_members, if_neg (by decide), if_neg (by decide), if_pos rfl]
    cases r.network <;> rfl
  have hmatcher : Matcher.ofMembers? ms = r.matcher := by
    simp only [Matcher.ofMembers?, Matcher.kinds, List.findSome?_cons, hget, get?_members]
    cases r.matcher with
    | none => rfl
    | some m =>
      cases m <;>
        simp [Matcher.member, normal_ofStrings, asListOf?_ofStrings, normal, asString?]
  rw [ofJson?, hinbound, houtbound, hnetwork, hmatcher]
  by_cases h : r.inboundTags = []
  · rw [if_pos h]
    show some (⟨[], r.outboundTag, r.matcher, r.network⟩ : Rule) = some r
    rw [← h]
  · rw [if_neg h]
    rfl

theorem normal_of_mem_members {r : Rule} {m : String × Json} (h : m ∈ r.members) :
    m.2.normal = m.2 := by
  obtain ⟨inboundTags, outboundTag, matcher, network⟩ := r
  simp only [members, List.mem_append, List.mem_singleton] at h
  rcases h with ((h | rfl) | h) | h
  · split at h
    · cases h
    · obtain rfl := List.mem_singleton.mp h
      exact normal_ofStrings inboundTags
  · rfl
  · cases matcher with
    | none => cases h
    | some matcher =>
      obtain rfl := List.mem_singleton.mp h
      exact matcher.normal_member
  · cases network with
    | none => cases h
    | some network =>
      obtain rfl := List.mem_singleton.mp h
      rfl

theorem hasDistinctKeys_toJson (r : Rule) (read : Number → Option Number) :
    (ofValueBy read r.toJson).hasDistinctKeys = true := by
  rw [toJson_eq]
  exact hasDistinctKeys_ofValueBy_object r.nodup_members fun m hm =>
    hasDistinctKeys_of_normal (normal_of_mem_members hm)

end Rule

/-! ## Tables -/

namespace Table

def ofJson? : Json → Option Table
  | .object ms => do
    let word ← (Members.get? ms "domainStrategy").bind asString?
    let rules ← (Members.get? ms "rules").bind (asListOf? Rule.ofJson?)
    let strategy ← (Override.DomainStrategy.ofText word).toOption
    return ⟨strategy, rules⟩
  | .null | .bool _ | .number _ | .string _ | .array _ => none

theorem ofText_name (s : Override.DomainStrategy) :
    Override.DomainStrategy.ofText s.name = .ok s := by
  cases s <;> decide +kernel

/-- **Reading undoes writing.** -/
theorem ofJson?_toJson (t : Table) : ofJson? t.toJson.normal = some t := by
  have hnodup : (Members.keys [("domainStrategy", .string t.strategy.name),
    ("rules", .array (t.rules.map Rule.toJson))]).Nodup := by simp [Members.keys]
  have hget := Members.get?_normal hnodup
  rw [toJson, normal_object]
  generalize Members.ofList _ = ms at hget ⊢
  have hword : (Members.get? ms "domainStrategy").bind asString? = some t.strategy.name := by
    rw [hget, Members.get?_cons_self]
    rfl
  have hrules : (Members.get? ms "rules").bind (asListOf? Rule.ofJson?) = some t.rules := by
    rw [hget, Members.get?_cons_of_ne (by decide), Members.get?_cons_self, Option.map_some,
      normal_array, List.map_map]
    exact asListOf?_map fun r _ => r.ofJson?_toJson
  rw [ofJson?, hword, hrules]
  simp only [Option.bind_eq_bind, Option.bind_some, ofText_name]
  rfl

theorem hasDistinctKeys_toJson (t : Table) (read : Number → Option Number) :
    (ofValueBy read t.toJson).hasDistinctKeys = true := by
  rw [toJson]
  refine hasDistinctKeys_ofValueBy_object (by simp [Members.keys]) fun m hm => ?_
  simp only [List.mem_cons, List.not_mem_nil, or_false] at hm
  rcases hm with rfl | rfl
  · rfl
  · refine hasDistinctKeys_ofValueBy_array fun v hv => ?_
    obtain ⟨r, -, rfl⟩ := List.mem_map.mp hv
    exact r.hasDistinctKeys_toJson read

end Table

end EgressPolicy.Routing
