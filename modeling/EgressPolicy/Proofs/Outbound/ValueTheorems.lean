import EgressPolicy.Proofs.Json.DenotationTheorems
import EgressPolicy.Proofs.Outbound.ConsistencyTheorems

/-!
Outbound descriptors and definitions as values.

A descriptor is read as the value of its text says (`Descriptor.follows_ofTree`), and the definition
that is built of it is that value with the protocol in small letters, nothing more and nothing less
(`Descriptor.definition_of_ofJson?`). Where the protocol is in small letters already, as it is in
every sound target, the definition is the value itself, so that a target whose definition is read
and built again is the same target (`Target.IsSound.ofText_definition`).
-/

namespace EgressPolicy.Outbound

open Json Json.Tree

namespace Descriptor

/-! ## Descriptors -/

def names : List String := ["tag", "protocol"]

def Draft.ofMembers? : Members → Option Draft :=
  Members.pair? "tag" "protocol" asString? asString? Draft.mk

def ofJson? : Json → Option Descriptor
  | .object ms =>
    (Draft.ofMembers? ms).map fun draft =>
      ⟨draft.tag.getD "", draft.protocol.getD "", draft.extra⟩
  | .null | .bool _ | .number _ | .string _ | .array _ => none

theorem readsPair_add (room : Nat) :
    ReadsPair (Draft.add room) room "tag" "protocol" text text Draft.mk where
  ne := by decide
  step_first _ _ _ _ := rfl
  step_second _ _ _ _ := rfl
  step_other _ _ _ _ _ h₁ h₂ := by rw [Draft.add, if_neg h₁, if_neg h₂]

/-- **Descriptors.** What is read of a descriptor is what its value says. -/
theorem follows_ofTree : Follows ofTree maxOpen ofJson? := by
  intro t v hdistinct hv
  cases v with
  | null | bool _ | number _ | string _ =>
    obtain rfl : t = _ := kind_of_value? hv
    rfl
  | array _ =>
    obtain ⟨_, _, -, rfl, -⟩ := kind_of_value? hv
    rfl
  | object ms =>
    obtain ⟨less, members, hless, rfl, hms⟩ := kind_of_value? hv
    obtain rfl : maxOpen - 1 = less := by rw [hless, Nat.add_sub_cancel]
    have hdraft := (readsPair_add (maxOpen - 1)).toOption_foldMembers
      (follows_text (maxOpen - 1)) (follows_text (maxOpen - 1)) hdistinct hms
    rw [ofTree, toOption_bind, hdraft, ofJson?, ← Draft.ofMembers?]
    cases Draft.ofMembers? ms <;> rfl

/-- Of a text that denotes a value the descriptor of the value is read, if its tag is not blank. -/
theorem ofText_of_denotes {s : String} {v : Json} (h : Denotes maxOpen s v) {d : Descriptor} :
    ofText s = .ok d ↔ ofJson? v = some d ∧ d.isNamed = true := by
  obtain ⟨t, htree, hdistinct, hv⟩ := h
  rw [ofText_eq_ok_iff, decodeText_of_hasTree htree, ← toOption_eq_some_iff,
    follows_ofTree t v hdistinct hv]

/-- A descriptor that is read keeps normal members beside its tag and its protocol. -/
theorem areKept_of_ofText {s : String} {d : Descriptor} (h : ofText s = .ok d) :
    Members.AreKept names (maxOpen - 1) d.extra := by
  obtain ⟨t, ht⟩ := exists_of_decodeText (ofText_eq_ok_iff.mp h).1
  cases t with
  | null | bool _ | number _ | string _ | array _ | broken => cases ht
  | object members =>
    rw [ofTree, bind_eq_ok_iff] at ht
    obtain ⟨draft, hdraft, ht⟩ := ht
    obtain rfl := Except.ok.inj ht
    obtain ⟨tag, protocol, extra, rfl, -, -, hextra⟩ := (readsPair_add _).sound hdraft
    exact hextra

/-- A text field that is not left out or empty. -/
theorem get?_of_field? {name : String} {ms : Members} {given : Option String}
    (h : Members.field? name asString? ms = some given) (hne : given.getD "" ≠ "") :
    Members.get? ms name = some (.string (given.getD "")) := by
  cases given with
  | none => exact absurd rfl hne
  | some s =>
    obtain ⟨v, hv, hs⟩ := Members.field?_eq_some_iff.mp h
    cases v with
    | string _ => rw [hv, Option.some.inj hs, Option.getD_some]
    | null | bool _ | number _ | array _ | object _ => cases hs

theorem tag_ne_empty {d : Descriptor} (h : d.isNamed = true) : d.tag ≠ "" := by
  intro he
  rw [isNamed, he] at h
  exact absurd h (by decide)

theorem protocol_ne_empty {d : Descriptor} (h : d.isSupported = true) : d.protocol ≠ "" := by
  intro he
  rw [isSupported, he] at h
  exact absurd h (by decide +kernel)

/-- What an object says when it is read as a descriptor that can be built. -/
theorem ofJson?_object_iff {ms : Members} {d : Descriptor} (hn : d.isNamed = true)
    (hs : d.isSupported = true) :
    ofJson? (.object ms) = some d ↔ Members.get? ms "tag" = some (.string d.tag) ∧
      Members.get? ms "protocol" = some (.string d.protocol) ∧
      d.extra = Members.without names ms := by
  rw [ofJson?, Option.map_eq_some_iff]
  constructor
  · intro h
    obtain ⟨draft, hdraft, rfl⟩ := h
    obtain ⟨tag, protocol, htag, hprotocol, rfl⟩ := Members.pair?_eq_some_iff.mp hdraft
    exact ⟨get?_of_field? htag (tag_ne_empty hn), get?_of_field? hprotocol (protocol_ne_empty hs),
      rfl⟩
  · intro h
    obtain ⟨htag, hprotocol, hextra⟩ := h
    refine ⟨_, Members.pair?_eq_some_iff.mpr ⟨some d.tag, some d.protocol,
      Members.field?_of_get? htag, Members.field?_of_get? hprotocol, rfl⟩, ?_⟩
    show (⟨d.tag, d.protocol, Members.without names ms⟩ : Descriptor) = d
    rw [← hextra]

/-! ## Written descriptors -/

/-- The members of a descriptor apart from those that are kept. -/
def ownMembers (d : Descriptor) : Members :=
  [("tag", .string d.tag), ("protocol", .string d.protocol)]

theorem toJson_eq (d : Descriptor) : d.toJson = .object (d.ownMembers ++ d.extra) := rfl

section Written

variable {room : Nat} {d : Descriptor} (h : Members.AreKept names room d.extra)

include h

theorem hasFieldsBefore_of_areKept : HasFieldsBefore names d.ownMembers d.extra :=
  ⟨by simp [names, ownMembers], by simp [Members.keys, ownMembers], h.apart, h.normal⟩

/-- **Reading undoes writing.** -/
theorem ofJson?_toJson : ofJson? d.toJson.normal = some d := by
  have hfields := hasFieldsBefore_of_areKept h
  have htag := hfields.get?_normal "tag"
  have hprotocol := hfields.get?_normal "protocol"
  have hextra := hfields.without_normal
  rw [if_pos (by decide)] at htag hprotocol
  rw [toJson_eq, normal_object]
  generalize Members.ofList _ = ms at htag hprotocol hextra ⊢
  have hdraft : Draft.ofMembers? ms = some ⟨some d.tag, some d.protocol, d.extra⟩ := by
    refine Members.pair?_eq_some_iff.mpr ⟨some d.tag, some d.protocol,
      Members.field?_of_get? htag, Members.field?_of_get? hprotocol, ?_⟩
    rw [← hextra]
    rfl
  rw [ofJson?, hdraft]
  rfl

theorem depth_toJson_le : d.toJson.depth ≤ room + 1 := by
  rw [toJson, depth, Nat.add_le_add_iff_right, depthMembers_le_iff]
  simp only [List.forall_mem_cons]
  exact ⟨Nat.zero_le _, Nat.zero_le _, h.depth_le⟩

theorem hasDistinctKeys_toJson (read : Number → Option Number) :
    (ofValueBy read d.toJson).hasDistinctKeys = true := by
  rw [toJson_eq]
  refine hasDistinctKeys_ofValueBy_object (hasFieldsBefore_of_areKept h).nodup fun m hm => ?_
  rcases List.mem_append.mp hm with hm | hm
  · rcases List.mem_pair.mp hm with rfl | rfl <;> rfl
  · exact hasDistinctKeys_of_normal (h.normal.value m hm)

end Written

/-! ## Definitions -/

/-- A text in small letters, and any other value as it is. -/
def smallLetters : Json → Json
  | .string s => .string (Text.lowerCase s)
  | v => v

/-- An object with its protocol in small letters. -/
def withSmallProtocol : Json → Json
  | .object ms =>
    .object (ms.map fun m => (m.1, if m.1 = "protocol" then smallLetters m.2 else m.2))
  | v => v

/-- **A definition** is what the description says, with the protocol in small letters. -/
theorem definition_of_ofJson? {v : Json} {d : Descriptor} (hv : v.normal = v)
    (hn : d.isNamed = true) (hs : d.isSupported = true) (h : ofJson? v = some d) :
    d.definition = withSmallProtocol v := by
  cases v with
  | null | bool _ | number _ | string _ | array _ => cases h
  | object ms =>
    have hms := (normal_object_eq_self_iff.mp hv).ascending
    obtain ⟨htag, hprotocol, hextra⟩ := (ofJson?_object_iff hn hs).mp h
    have hkept := hms.without names
    rw [definition, withSmallProtocol, hextra]
    refine congrArg Json.object (((hkept.insert _ _).insert _ _).ext
      (hms.map fun key v => if key = "protocol" then smallLetters v else v) fun key => ?_)
    rw [Members.get?_map fun key v => if key = "protocol" then smallLetters v else v,
      Members.get?_insert, Members.get?_insert, Members.get?_without hms.nodup]
    by_cases hkeyProtocol : key = "protocol"
    · subst hkeyProtocol
      rw [if_pos rfl, hprotocol]
      rfl
    · by_cases hkeyTag : key = "tag"
      · subst hkeyTag
        rw [if_neg hkeyProtocol, if_pos rfl, htag]
        rfl
      · have hname : key ∉ names := by simp [names, hkeyProtocol, hkeyTag]
        rw [if_neg hkeyProtocol, if_neg hkeyTag, if_neg hname]
        cases Members.get? ms key <;> simp [hkeyProtocol]

/-- Where the protocol is in small letters, nothing is changed. -/
theorem withSmallProtocol_eq_self {ms : Members} (hms : Members.IsAscending ms) {protocol : String}
    (hprotocol : Members.get? ms "protocol" = some (.string protocol))
    (hsmall : Text.lowerCase protocol = protocol) :
    withSmallProtocol (.object ms) = .object ms := by
  have hsame : ∀ m ∈ ms, (m.1, if m.1 = "protocol" then smallLetters m.2 else m.2) = id m := by
    intro m hm
    split
    · rename_i hkey
      have hget := (Members.get?_eq_some_iff hms.nodup).mpr hm
      rw [hkey, hprotocol] at hget
      rw [← Option.some.inj hget, smallLetters, hsmall, Option.some.inj hget]
      rfl
    · rfl
  rw [withSmallProtocol, List.map_congr_left hsame, List.map_id]

theorem normal_definition {d : Descriptor} (h : Members.IsNormal d.extra) :
    d.definition.normal = d.definition :=
  normal_object_eq_self_iff.mpr ((h.insert rfl "tag").insert rfl "protocol")

end Descriptor

/-! ## Targets that are read again -/

theorem Target.normal_of_mem_builtins {t : Target} (h : t ∈ builtins) :
    t.definition.normal = t.definition := by
  revert t
  decide +kernel

/-- The target of a definition. -/
def Target.ofDefinition? (definition : Json) : Option Target :=
  ((definition.get? "tag").bind asString?).map fun tag => ⟨tag, definition⟩

/-- A sound target is known by its definition. -/
theorem Target.IsSound.ofDefinition?_definition {t : Target} (h : t.IsSound) :
    ofDefinition? t.definition = some t := by
  obtain ⟨ms, hdefinition, htag, -⟩ := h.definition
  have hget : t.definition.get? "tag" = some (.string t.tag) := by
    rw [hdefinition]
    exact htag
  rw [ofDefinition?, hget]
  rfl

theorem lowerCase_of_mem_supportedProtocols {protocol : String}
    (h : protocol ∈ supportedProtocols) : Text.lowerCase protocol = protocol := by
  revert protocol
  decide +kernel

/-- **A sound target** is built again from a text that denotes its definition. -/
theorem Target.IsSound.ofText_definition {t : Target} (h : t.IsSound) {s : String}
    (hs : Denotes maxOpen s t.definition) : ∃ d, Descriptor.ofText s = .ok d ∧
      (d.isNamed && d.isSupported) = true ∧ d.target = t := by
  obtain ⟨ms, hdefinition, htag, protocol, hsupported, hprotocol⟩ := h.definition
  have hsmall := lowerCase_of_mem_supportedProtocols hsupported
  let d : Descriptor := ⟨t.tag, protocol, Members.without Descriptor.names ms⟩
  have hn : d.isNamed = true := by
    rw [Descriptor.isNamed, Bool.not_eq_true', ← Bool.not_eq_true, Text.isBlankText_iff]
    exact h.isNamed
  have hd : d.isSupported = true := by
    rw [Descriptor.isSupported, decide_eq_true_iff, hsmall]
    exact hsupported
  have hread : Descriptor.ofJson? t.definition = some d := by
    rw [hdefinition, Descriptor.ofJson?_object_iff hn hd]
    exact ⟨htag, hprotocol, rfl⟩
  refine ⟨d, (Descriptor.ofText_of_denotes hs).mpr ⟨hread, hn⟩, ?_, ?_⟩
  · rw [hn, hd]
    rfl
  · have hms := (normal_object_eq_self_iff.mp (hdefinition ▸ hs.normal_eq)).ascending
    have hdef : d.definition = t.definition := by
      rw [Descriptor.definition_of_ofJson? hs.normal_eq hn hd hread, hdefinition,
        Descriptor.withSmallProtocol_eq_self hms hprotocol hsmall]
    rw [Descriptor.target, hdef]

/-! ## Registering definitions -/

namespace Registry

/-- Registers texts one after the other: the answers, and the registry at the end. -/
def registerTexts (r : Registry) :
    List String → List (Except RegistrationError String) × Registry
  | [] => ([], r)
  | s :: rest =>
    let first := r.registerText s
    let others := registerTexts first.2 rest
    (first.1 :: others.1, others.2)

/-- The definition of a sound target whose tag is not there registers the target. -/
theorem registerText_definition {r : Registry} {t : Target} (ht : t.IsSound)
    (hnew : r.contains t.tag = false) {s : String} (hs : Denotes maxOpen s t.definition) :
    r.registerText s = (.ok t.tag, r.insert t) := by
  obtain ⟨d, hd, hbuilt, rfl⟩ := ht.ofText_definition hs
  have hnewTag : r.contains d.tag = false := hnew
  rw [registerText, hd]
  show r.register d = _
  rcases register_cases r d with ⟨hthere, -⟩ | ⟨-, -, hr⟩ | ⟨-, hunbuilt, -⟩
  · rw [hthere] at hnewTag
    cases hnewTag
  · exact hr
  · rw [hunbuilt] at hbuilt
    cases hbuilt

/-- Registering the definitions of targets inserts the targets, and every answer is a success. -/
theorem registerTexts_definitions (write : Json → String) : ∀ (ts : List Target) (r : Registry),
    (∀ t ∈ ts, t.IsSound) → (ts.map Target.tag).Nodup → (∀ t ∈ ts, r.contains t.tag = false) →
      (∀ t ∈ ts, Denotes maxOpen (write t.definition) t.definition) →
        r.registerTexts (ts.map fun t => write t.definition) =
          (ts.map fun t => .ok t.tag, ts.foldl insert r)
  | [], _, _, _, _, _ => rfl
  | t :: rest, r, hsound, hnodup, hnew, hwrite => by
    rw [List.forall_mem_cons] at hsound hnew hwrite
    rw [List.map_cons, List.nodup_cons] at hnodup
    have hfirst := registerText_definition hsound.1 hnew.1 hwrite.1
    have hnewRest : ∀ u ∈ rest, (r.insert t).contains u.tag = false := by
      intro u hu
      have hne : t.tag ≠ u.tag := fun he => hnodup.1 (he ▸ List.mem_map_of_mem hu)
      rw [contains_insert, hnew.2 u hu, Bool.or_false, beq_eq_false_iff_ne]
      exact hne
    have hmore := registerTexts_definitions write rest (r.insert t) hsound.2 hnodup.2 hnewRest
      hwrite.2
    rw [List.map_cons, registerTexts]
    simp only [hfirst, hmore]
    rfl

/-- **A registry is rebuilt** from the definitions of its targets. -/
theorem IsConsistent.rebuilt {r : Registry} (h : r.IsConsistent)
    {write : Json → String}
    (hwrite : ∀ t ∈ r.targets, Denotes maxOpen (write t.definition) t.definition) :
    (empty.registerTexts (r.definitions.map write)).1 = r.tags.map .ok ∧
    (empty.registerTexts (r.definitions.map write)).2.targets = r.targets ∧
    ∀ tag, (empty.registerTexts (r.definitions.map write)).2.contains tag = r.contains tag := by
  have hempty : ∀ t ∈ r.targets, empty.contains t.tag = false := fun _ _ => rfl
  have hrun := registerTexts_definitions write r.targets empty h.sound h.nodup hempty hwrite
  have htargets : (r.targets.foldl Registry.insert empty).targets = r.targets := by
    rw [targets_foldl_insert _ _ h.nodup]
    exact List.filter_eq_self.mpr fun t ht => by rw [hempty t ht]; rfl
  rw [definitions, List.map_map]
  show (empty.registerTexts (r.targets.map fun t => write t.definition)).1 = _ ∧
    (empty.registerTexts (r.targets.map fun t => write t.definition)).2.targets = _ ∧
    ∀ tag, (empty.registerTexts (r.targets.map fun t => write t.definition)).2.contains tag = _
  rw [hrun]
  refine ⟨?_, htargets, fun tag => ?_⟩
  · rw [tags, List.map_map]
    rfl
  · have hindexed := IsIndexed.foldl_insert r.targets isIndexed_empty
    rw [Bool.eq_iff_iff, hindexed tag, h.indexed tag, tags, tags, htargets]

end Registry

end EgressPolicy.Outbound
