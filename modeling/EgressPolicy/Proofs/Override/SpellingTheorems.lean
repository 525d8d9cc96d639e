import EgressPolicy.Proofs.Json.DenotationTheorems
import EgressPolicy.Proofs.Json.FileTheorems
import EgressPolicy.Proofs.Json.SpellingTheorems
import EgressPolicy.Proofs.Json.TextTheorems
import EgressPolicy.Proofs.Override.LegacyTheorems
import Mathlib.Data.Set.List

/-!
The spellings of overrides, and ports that are added to them.

Overrides that are an object are read field by field (`Policy.ofTree_object_eq_ok_iff`), whatever
the order of the members and whatever else is there (`Policy.toOption_ofTree_of_perm`). So a list of
ports that is added to an object without one changes the ports and nothing else
(`Policy.ofTree_of_added_ports`). What is added has to be a list of integers of 64 bits. Integers
that are no ports match nothing then, but one that is larger makes the whole text malformed
(`Policy.ofText_of_added_ports`).
-/

namespace EgressPolicy.Override

open Json (HasTree)
open Json.Tree

/-! ## Fields of overrides -/

/-- A strategy is spelled as one of its words. -/
def StrategySpelling (d : DomainStrategy) (t : Json.Tree) : Prop :=
  ∃ s, t = .string (some s) ∧ DomainStrategy.ofText s = .ok d

theorem Policy.spells_strategyOfTree : Spells strategyOfTree StrategySpelling := by
  intro t d
  simp only [strategyOfTree, bind_eq_ok_iff, mapError_eq_ok_iff, spells_text t _, TextSpelling,
    StrategySpelling]

/-- The fields of overrides as they are read, before the block list is a set. -/
structure Entries where
  strategy : DomainStrategy
  blocked : List Int64
  legacyPorts : List Int64
  legacySuffixes : List String

namespace Entries

def policy (e : Entries) : Policy :=
  ⟨e.strategy, Std.TreeSet.ofList e.blocked, e.legacyPorts, e.legacySuffixes⟩

def portsField (e : Entries) : Field :=
  ⟨"block_cn_ports", !e.legacyPorts.isEmpty, ListSpelling Int64Spelling e.legacyPorts⟩

def otherFields (e : Entries) : List Field :=
  [⟨"domainStrategy", decide (e.strategy ≠ .asIs), StrategySpelling e.strategy⟩,
   ⟨"block_cn_nodes", !e.blocked.isEmpty, ListSpelling Int64Spelling e.blocked⟩,
   ⟨"block_cn_tags", !e.legacySuffixes.isEmpty, ListSpelling TextSpelling e.legacySuffixes⟩]

end Entries

namespace Policy

/-- The places of the fields of overrides. Each may be left out. -/
def places : List (Place Draft Entries) :=
  [{ name := "domainStrategy", decode := strategyOfTree, spelling := StrategySpelling
     spells := spells_strategyOfTree
     get := Draft.strategy, put := fun draft a => { draft with strategy := a }
     part := Entries.strategy, default? := some .asIs
     isRequired := fun e => decide (e.strategy ≠ .asIs)
     isRequired_eq_false_iff := fun e => by cases h : e.strategy <;> simp },
   { name := "block_cn_nodes", decode := list int64, spelling := ListSpelling Int64Spelling
     spells := spells_int64.list
     get := Draft.blocked, put := fun draft a => { draft with blocked := a }
     part := Entries.blocked, default? := some [], isRequired := fun e => !e.blocked.isEmpty
     isRequired_eq_false_iff := fun e => by cases h : e.blocked <;> simp },
   { name := "block_cn_ports", decode := list int64, spelling := ListSpelling Int64Spelling
     spells := spells_int64.list
     get := Draft.legacyPorts, put := fun draft a => { draft with legacyPorts := a }
     part := Entries.legacyPorts, default? := some []
     isRequired := fun e => !e.legacyPorts.isEmpty
     isRequired_eq_false_iff := fun e => by cases h : e.legacyPorts <;> simp },
   { name := "block_cn_tags", decode := list text, spelling := ListSpelling TextSpelling
     spells := spells_text.list
     get := Draft.legacySuffixes, put := fun draft a => { draft with legacySuffixes := a }
     part := Entries.legacySuffixes, default? := some []
     isRequired := fun e => !e.legacySuffixes.isEmpty
     isRequired_eq_false_iff := fun e => by cases h : e.legacySuffixes <;> simp }]

theorem readsPlaces_add : ReadsPlaces Draft.add places where
  nodup := by decide
  step_place := by
    simp only [places, List.forall_mem_cons]
    exact ⟨fun _ _ => rfl, fun _ _ => rfl, fun _ _ => rfl, fun _ _ => rfl, nofun⟩
  step_other draft key t hkey := by
    simp only [places, List.map_cons, List.map_nil, List.mem_cons, List.not_mem_nil, or_false,
      not_or] at hkey
    rw [Draft.add, if_neg hkey.1, if_neg hkey.2.1, if_neg hkey.2.2.1, if_neg hkey.2.2.2]
  get_put_self := by simp [places]
  get_put_other := by simp [places]

/-- The fields of a draft; what is not given has its default. -/
def Draft.entries (draft : Draft) : Entries :=
  ⟨draft.strategy.getD .asIs, draft.blocked.getD [], draft.legacyPorts.getD [],
    draft.legacySuffixes.getD []⟩

theorem entries_eq_ok_iff (draft : Draft) (e : Entries) :
    (pure draft.entries : Json.Decoded Entries) = .ok e ↔ ∀ p ∈ places, p.Gives draft e := by
  obtain ⟨strategy, blocked, ports, suffixes⟩ := e
  simp only [pure, Except.pure, Except.ok.injEq, Draft.entries, Entries.mk.injEq, places,
    List.forall_mem_cons, Place.Gives, Option.or_some, Option.some.injEq]
  simp

/-- **Objects** are read as the policy of the fields that they have. -/
theorem ofTree_object_eq_ok_iff {members : List (Option String × Json.Tree)} {p : Policy} :
    ofTree (.object members) = .ok p ↔ ∃ e : Entries, e.policy = p ∧
      HasFields (e.portsField :: e.otherFields) IsAny members := by
  have hempty : ∀ q ∈ places, q.get {} = none := by simp [places]
  have hspells : ∀ e : Entries,
      (foldMembers Draft.add {} members >>= fun draft => pure draft.entries) = .ok e ↔
        HasFields (e.portsField :: e.otherFields) IsAny members := by
    intro e
    rw [readsPlaces_add.object_spells hempty entries_eq_ok_iff]
    exact hasFields_perm_fields (@List.perm_middle _ _ (e.otherFields.take 2) _)
  simp only [ofTree, ← hspells, bind_eq_ok_iff]
  constructor
  · rintro ⟨draft, hdraft, hp⟩
    exact ⟨draft.entries, Except.ok.inj hp, draft, hdraft, rfl⟩
  · rintro ⟨e, rfl, draft, hdraft, he⟩
    obtain rfl := Except.ok.inj he
    exact ⟨draft, hdraft, rfl⟩

/-- The order of the members of overrides does not count, nor do members with other keys. -/
theorem toOption_ofTree_of_perm {members members' more : List (Option String × Json.Tree)}
    (hmore : AreOthers ["block_cn_ports", "domainStrategy", "block_cn_nodes", "block_cn_tags"]
      IsAny more)
    (hperm : members'.Perm (members ++ more)) :
    (ofTree (.object members')).toOption = (ofTree (.object members)).toOption := by
  refine Option.ext fun p => ?_
  rw [toOption_eq_some_iff, toOption_eq_some_iff, ofTree_object_eq_ok_iff, ofTree_object_eq_ok_iff]
  exact exists_congr fun e => and_congr_right fun _ => hasFields_iff_of_perm hmore hperm

/-! ## Ports that are added -/

/-- **Ports** that are added to an object without ports are the ports of the policy then, and the
rest of the policy stays. -/
theorem ofTree_of_added_ports {members members' : List (Option String × Json.Tree)}
    {t : Json.Tree} {p : Policy} (hp : ofTree (.object members) = .ok p)
    (hnone : timesGiven "block_cn_ports" members = 0)
    (hadded : members'.Perm ((some "block_cn_ports", t) :: members)) :
    p.legacyPorts = [] ∧ ∀ p', ofTree (.object members') = .ok p' ↔
      ∃ ports, ListSpelling Int64Spelling ports t ∧ p' = { p with legacyPorts := ports } := by
  have hnew : ∀ e : Entries, e.portsField.name ∉ e.otherFields.map Field.name :=
    fun e => by simp [Entries.portsField, Entries.otherFields]
  obtain ⟨e, rfl, he⟩ := ofTree_object_eq_ok_iff.mp hp
  obtain ⟨hfree, hothers⟩ := (hasFields_cons_of_omitted hnone).mp he
  have hports : e.legacyPorts = [] := by simpa [Entries.portsField] using hfree
  refine ⟨hports, fun p' => ⟨fun hp' => ?_, ?_⟩⟩
  · obtain ⟨e', rfl, he'⟩ := ofTree_object_eq_ok_iff.mp hp'
    obtain ⟨hspelling, hothers'⟩ := (hasFields_cons_of_added (hnew e') hnone hadded).mp he'
    -- Without the ports again, what was read is what was read before.
    let bare : Entries := { e' with legacyPorts := [] }
    have hbare : HasFields (bare.portsField :: bare.otherFields) IsAny members :=
      (hasFields_cons_of_omitted hnone).mpr ⟨rfl, hothers'⟩
    have hsame : bare.policy = e.policy :=
      Except.ok.inj ((ofTree_object_eq_ok_iff.mpr ⟨bare, rfl, hbare⟩).symm.trans hp)
    exact ⟨e'.legacyPorts, hspelling, hsame ▸ rfl⟩
  · rintro ⟨ports, hspelling, rfl⟩
    let full : Entries := { e with legacyPorts := ports }
    have hfull : HasFields (full.portsField :: full.otherFields) IsAny members' :=
      (hasFields_cons_of_added (hnew full) hnone hadded).mpr ⟨hspelling, hothers⟩
    exact ofTree_object_eq_ok_iff.mpr ⟨full, rfl, hfull⟩

/-- A list of integers of any size, as it is read. What does not fit into 64 bits, with a sign or
without, is a float or no number at all. -/
def integers (values : List Int) : Json.Tree :=
  .array (values.map fun n => .number (Number.integer n).reread?)

theorem listSpelling_integers_iff {ports : List Int64} {values : List Int} :
    ListSpelling Int64Spelling ports (integers values) ↔ ports.map Int64.toInt = values := by
  simp only [ListSpelling, integers, array.injEq, exists_eq_left', List.forall₂_map_right_iff,
    int64Spelling_reread?_iff]
  rw [← List.forall₂_map_left_iff, List.forall₂_eq_eq_eq]

/-- Integers are the values of some of 64 bits exactly when each of them fits. -/
theorem exists_map_toInt_eq_iff {values : List Int} :
    (∃ ports : List Int64, ports.map Int64.toInt = values) ↔
      ∀ v ∈ values, Int64.minValue.toInt ≤ v ∧ v ≤ Int64.maxValue.toInt := by
  constructor
  · rintro ⟨ports, rfl⟩ v hv
    obtain ⟨port, -, rfl⟩ := List.mem_map.mp hv
    exact ⟨Int64.minValue_le_toInt port, Int64.toInt_le port⟩
  · intro h
    have hsame : ∀ v ∈ values, (Int64.toInt ∘ Int64.ofInt) v = id v := fun v hv =>
      Int64.toInt_ofInt_of_le (h v hv).1 (Int.lt_of_le_of_lt (h v hv).2 (by decide))
    exact ⟨values.map Int64.ofInt, by rw [List.map_map, List.map_congr_left hsame, List.map_id]⟩

/-- **Ports of any size.** A list of integers that is added as the ports of an object that was
accepted without ports leaves the object acceptable exactly when every integer has 64 bits; one that
is larger makes a file with the object count for nothing. What is accepted has the strategy, the
block list and the suffixes that it had. It blocks what it blocked and, by the older schema, the
nodes whose tags name one of the integers, which only those from 1 to 65535 can be. -/
theorem ofText_of_added_ports {s s' : String} {members members' : List (Option String × Json.Tree)}
    {p : Policy} {values : List Int} (hs : HasTree s (.object members)) (hp : ofText s = .ok p)
    (hnone : timesGiven "block_cn_ports" members = 0) (hs' : HasTree s' (.object members'))
    (hadded : members'.Perm ((some "block_cn_ports", integers values) :: members)) :
    ((∃ p', ofText s' = .ok p') ↔
      ∀ v ∈ values, Int64.minValue.toInt ≤ v ∧ v ≤ Int64.maxValue.toInt) ∧
    ((∃ v ∈ values, v < Int64.minValue.toInt ∨ Int64.maxValue.toInt < v) →
      ofFile (File.ofText s') = default) ∧
    ∀ p', ofText s' = .ok p' → p'.strategy = p.strategy ∧ p'.blocked = p.blocked ∧
      p'.legacySuffixes = p.legacySuffixes ∧ p'.legacyPorts.map Int64.toInt = values ∧
      ∀ n legacy, p'.blocks n legacy = true ↔
        p.blocks n legacy = true ∨ legacy = true ∧ ∃ v ∈ values, NamesPort n.tag v := by
  rw [ofText, Json.decodeText_of_hasTree hs] at hp
  obtain ⟨hports, hiff⟩ := ofTree_of_added_ports hp hnone hadded
  simp only [listSpelling_integers_iff] at hiff
  have hread : ofText s' = ofTree (.object members') := Json.decodeText_of_hasTree hs' ofTree
  have haccepted : (∃ p', ofText s' = .ok p') ↔
      ∀ v ∈ values, Int64.minValue.toInt ≤ v ∧ v ≤ Int64.maxValue.toInt := by
    rw [hread, ← exists_map_toInt_eq_iff]
    constructor
    · rintro ⟨p', hp'⟩
      obtain ⟨ports, hvalues, -⟩ := (hiff p').mp hp'
      exact ⟨ports, hvalues⟩
    · rintro ⟨ports, hvalues⟩
      exact ⟨_, (hiff _).mpr ⟨ports, hvalues, rfl⟩⟩
  refine ⟨haccepted, ?_, fun p' hp' => ?_⟩
  · rintro ⟨v, hv, hlarge⟩
    rw [ofFile, File.usable?_of_text? (File.text?_ofText s')]
    cases hrefused : ofText s' with
    | error e => rfl
    | ok p' =>
      have hfits := haccepted.mp ⟨p', hrefused⟩ v hv
      omega
  · rw [hread] at hp'
    obtain ⟨ports, rfl, rfl⟩ := (hiff p').mp hp'
    refine ⟨rfl, rfl, rfl, rfl, fun n legacy => ?_⟩
    simp only [blocks_iff, hports, List.mem_map, exists_exists_and_eq_and, List.not_mem_nil,
      false_and, exists_false, false_or]
    rw [or_assoc, ← and_or_left]
    exact or_congr_right (and_congr_right' or_comm)

/-- Overrides with a block list only. -/
def blockingFive : Json :=
  .object [("block_cn_nodes", .array [.number (.integer 5)])]

/-- The same with three ports, of which two match nothing. -/
def blockingFiveAndPorts : Json :=
  .object
    [("block_cn_nodes", .array [.number (.integer 5)]),
     ("block_cn_ports", .array [.number (.integer 443), .number (.integer 70000),
      .number (.integer (-1))])]

theorem ofText_of_added_ports_three : ∃ p p', ofText blockingFive.text = .ok p ∧
    ofText blockingFiveAndPorts.text = .ok p' ∧ p'.blocked = p.blocked ∧
    p'.legacyPorts.map Int64.toInt = [443, 70000, -1] := by
  have hs := Json.hasTree_text blockingFive
  have hs' := Json.hasTree_text blockingFiveAndPorts
  let e : Entries := ⟨.asIs, [5], [], []⟩
  have hfields : GiveInOrder (e.portsField :: e.otherFields)
      [(some "block_cn_nodes", integers [5])] :=
    .omitted rfl (.omitted rfl (.present (listSpelling_integers_iff.mpr rfl) (.omitted rfl .nil)))
  have hp : ofText blockingFive.text = .ok e.policy := by
    rw [ofText, Json.decodeText_of_hasTree hs]
    exact ofTree_object_eq_ok_iff.mpr ⟨e, rfl, hfields.hasFields (by decide)⟩
  have hadded : [(some "block_cn_nodes", integers [5]),
      (some "block_cn_ports", integers [443, 70000, -1])].Perm
      ((some "block_cn_ports", integers [443, 70000, -1]) ::
        [(some "block_cn_nodes", integers [5])]) := .swap _ _ _
  obtain ⟨haccepted, -, hkept⟩ := ofText_of_added_ports hs hp (by decide) hs' hadded
  obtain ⟨p', hp'⟩ := haccepted.mpr (by decide)
  obtain ⟨-, hblocked, -, hports, -⟩ := hkept p' hp'
  exact ⟨e.policy, p', hp, hp', hblocked, hports⟩

/-- One port that does not fit into 64 bits is enough, and the whole block list is lost. -/
theorem refused_of_port_beyond_int64 :
    let short := "\x7b\"block_cn_nodes\":[5]\x7d"
    let long := "\x7b\"block_cn_nodes\":[5],\"block_cn_ports\":[9223372036854775808]\x7d"
    (ofText short).isOk = true ∧ (ofText long).isOk = false ∧
    (ofFile (File.ofText short)).blocks ⟨5, "t5", []⟩ false = true ∧
    (ofFile (File.ofText long)).blocks ⟨5, "t5", []⟩ false = false := by
  decide +kernel

end Policy

end EgressPolicy.Override
