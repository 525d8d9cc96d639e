import EgressPolicy.Proofs.Directive.AcceptedTheorems
import EgressPolicy.Proofs.Json.DenotationTheorems

/-!
DNS documents as values.

`Server.ofJson?` and `Document.ofJson?` read a server and a document from values, without regard to
how they are spelled, and the decoders follow them (`Server.follows_ofTree`,
`Document.follows_ofTree`). What was read carries no other member under the name of a field
(`Server.isKept_of_ofTree`, `Document.isKept_of_ofTree`), so writing it and reading that again gives
the same (`Server.IsKept.ofJson?_toJson`, `Policy.ofJson?_toJson`).
-/

namespace EgressPolicy.Dns

open Json Json.Tree

/-! ## Query strategies -/

theorem QueryStrategy.ofText_name (q : QueryStrategy) : ofText q.name = .ok q := by
  cases q <;> decide +kernel

def Document.strategyOfJson? : Json → Option (Option QueryStrategy)
  | .null => some none
  | .string s =>
    if Text.isBlankText s then some none else (QueryStrategy.ofText s).toOption.map some
  | .bool _ | .number _ | .array _ | .object _ => none

theorem Document.follows_strategyOfTree (room : Nat) :
    Follows strategyOfTree room strategyOfJson? := by
  intro t v _ hv
  cases v with
  | null | bool _ | number _ =>
    obtain rfl : t = _ := kind_of_value? hv
    rfl
  | string s =>
    obtain rfl : t = _ := kind_of_value? hv
    show (if Text.isBlankText s = true then pure none
      else ((QueryStrategy.ofText s).map some).mapError DecodeError.unknownWord).toOption = _
    rw [strategyOfJson?]
    cases Text.isBlankText s with
    | true => rfl
    | false => simp only [Bool.false_eq_true, if_false, toOption_mapError, toOption_map]
  | array _ | object _ =>
    obtain ⟨_, _, -, rfl, -⟩ := kind_of_value? hv
    rfl

/-! ## Servers -/

namespace Server

def names : List String := ["address", "domains"]

/-- What the members of an object make of a server. -/
def Draft.ofMembers? : Members → Option Draft :=
  Members.pair? "address" "domains" asString? (asListOf? asString?) Draft.mk

def ofJson? : Json → Option Server
  | .string address => some (ofAddress address)
  | .object ms =>
    (Draft.ofMembers? ms).bind fun draft =>
      draft.address.map fun address => ⟨address, draft.domains.getD [], draft.extra⟩
  | .null | .bool _ | .number _ | .array _ => none

theorem readsPair_add (room : Nat) :
    ReadsPair (Draft.add room) room "address" "domains" text (Tree.list text) Draft.mk where
  ne := by decide
  step_first _ _ _ _ := rfl
  step_second _ _ _ _ := rfl
  step_other _ _ _ _ _ h₁ h₂ := by rw [Draft.add, if_neg h₁, if_neg h₂]

/-- **Servers.** What is read of a server is what its value says. -/
theorem follows_ofTree (room : Nat) : Follows (ofTree room) room ofJson? := by
  intro t v hdistinct hv
  cases v with
  | null | bool _ | number _ | string _ =>
    obtain rfl : t = _ := kind_of_value? hv
    rfl
  | array _ =>
    obtain ⟨_, _, -, rfl, -⟩ := kind_of_value? hv
    rfl
  | object ms =>
    obtain ⟨less, members, rfl, rfl, hms⟩ := kind_of_value? hv
    have hdraft := (readsPair_add less).toOption_foldMembers (follows_text less)
      (Follows.list fun less _ => follows_text less) hdistinct hms
    rw [ofTree, toOption_mapError, ofMembers, toOption_bind, Nat.add_sub_cancel, hdraft, ofJson?,
      ← Draft.ofMembers?]
    cases Draft.ofMembers? ms with
    | none => rfl
    | some draft =>
      obtain ⟨address, domains, extra⟩ := draft
      cases address <;> rfl

/-- The members of a server apart from those that are kept. -/
def ownMembers (s : Server) : Members :=
  ("address", .string s.address) ::
    if s.domains = [] then [] else [("domains", Json.ofStrings s.domains)]

theorem toJson_eq (s : Server) : s.toJson = .object (s.ownMembers ++ s.extra) := rfl

/-- A server whose other members are kept, with so much room for them. -/
def IsKept (room : Nat) (s : Server) : Prop :=
  Members.AreKept names room s.extra

theorem isKept_ofAddress (room : Nat) (address : String) : (ofAddress address).IsKept room :=
  Members.areKept_nil names room

/-- A server that is read has no other member under the name of a field. -/
theorem isKept_of_ofTree {room : Nat} {t : Tree} {s : Server} (h : ofTree room t = .ok s) :
    s.IsKept (room - 1) := by
  unfold ofTree at h
  split at h
  · obtain rfl := Except.ok.inj h
    exact isKept_ofAddress _ _
  · rw [mapError_eq_ok_iff, ofMembers, bind_eq_ok_iff] at h
    obtain ⟨draft, hdraft, h⟩ := h
    rw [bind_eq_ok_iff] at h
    obtain ⟨address, -, h⟩ := h
    obtain rfl := Except.ok.inj h
    obtain ⟨a, b, extra, rfl, -, -, hextra⟩ := (readsPair_add (room - 1)).sound hdraft
    exact hextra
  · cases h

theorem IsKept.hasFieldsBefore {room : Nat} {s : Server} (h : s.IsKept room) :
    HasFieldsBefore names s.ownMembers s.extra := by
  refine ⟨?_, ?_, h.apart, h.normal⟩
  · unfold ownMembers
    split <;> simp [names]
  · unfold ownMembers
    split <;> simp [Members.keys]

/-- **Reading undoes writing.** -/
theorem IsKept.ofJson?_toJson {room : Nat} {s : Server} (h : s.IsKept room) :
    ofJson? s.toJson.normal = some s := by
  have hfields := h.hasFieldsBefore
  have haddress := hfields.get?_normal "address"
  have hdomains := hfields.get?_normal "domains"
  rw [if_pos (by decide)] at haddress hdomains
  have hread : Members.field? "address" asString?
      (Members.ofList ((s.ownMembers ++ s.extra).map fun m => (m.1, m.2.normal))) =
        some (some s.address) :=
    Members.field?_of_get? haddress
  rw [toJson_eq, normal_object, ofJson?, Draft.ofMembers?, Members.pair?, hread, ← names,
    hfields.without_normal]
  unfold ownMembers at hdomains ⊢
  by_cases hnone : s.domains = []
  · rw [if_pos hnone] at hdomains ⊢
    have hget : Members.get? _ "domains" = none := hdomains
    rw [Members.field?, hget]
    show some (⟨s.address, [], s.extra⟩ : Server) = some s
    rw [← hnone]
  · rw [if_neg hnone] at hdomains ⊢
    have hget : Members.get? _ "domains" = some (ofStrings s.domains).normal := hdomains
    rw [Members.field?_of_get? hget, normal_ofStrings, asListOf?_ofStrings]
    rfl

theorem IsKept.depth_toJson_le {room : Nat} {s : Server} (h : s.IsKept room) (hroom : 1 ≤ room) :
    s.toJson.depth ≤ room + 1 := by
  rw [toJson_eq, depth, Nat.add_le_add_iff_right, depthMembers_le_iff]
  intro m hm
  rcases List.mem_append.mp hm with hm | hm
  · rcases List.mem_cons.mp hm with rfl | hm
    · exact Nat.zero_le _
    · split at hm
      · cases hm
      · obtain rfl := List.mem_singleton.mp hm
        exact (depth_ofStrings_le s.domains).trans hroom
  · exact h.depth_le m hm

theorem IsKept.hasDistinctKeys_toJson {room : Nat} {s : Server} (h : s.IsKept room)
    (read : Number → Option Number) : (ofValueBy read s.toJson).hasDistinctKeys = true := by
  rw [toJson_eq]
  refine hasDistinctKeys_ofValueBy_object h.hasFieldsBefore.nodup fun m hm => ?_
  rcases List.mem_append.mp hm with hm | hm
  · rcases List.mem_cons.mp hm with rfl | hm
    · rfl
    · split at hm
      · cases hm
      · obtain rfl := List.mem_singleton.mp hm
        exact hasDistinctKeys_ofValueBy_ofStrings read s.domains
  · exact hasDistinctKeys_of_normal (h.normal.value m hm)

end Server

/-! ## Documents -/

namespace Document

def names : List String := ["servers", "queryStrategy"]

def Draft.ofMembers? : Members → Option Draft :=
  Members.pair? "servers" "queryStrategy" (asListOf? Server.ofJson?) strategyOfJson? Draft.mk

def ofJson? : Json → Option Document
  | .object ms =>
    (Draft.ofMembers? ms).bind fun draft =>
      draft.servers.map fun servers => ⟨servers, draft.strategy.getD none, draft.extra⟩
  | .null | .bool _ | .number _ | .string _ | .array _ => none

theorem readsPair_add :
    ReadsPair Draft.add (maxOpen - 1) "servers" "queryStrategy"
      (Tree.list (Server.ofTree (maxOpen - 2))) strategyOfTree Draft.mk where
  ne := by decide
  step_first _ _ _ _ := rfl
  step_second _ _ _ _ := rfl
  step_other _ _ _ _ _ h₁ h₂ := by rw [Draft.add, if_neg h₁, if_neg h₂]

/-- **Documents.** What is read of a document is what its value says. -/
theorem follows_ofTree : Follows ofTree maxOpen ofJson? := by
  intro t v hdistinct hv
  cases v with
  | null | bool _ | number _ | string _ =>
    obtain rfl : t = _ := kind_of_value? hv
    rfl
  | array _ =>
    obtain ⟨_, _, -, rfl, -⟩ := kind_of_value? hv
    rfl
  | object ms =>
    obtain ⟨less, members, hless, rfl, hms⟩ := kind_of_value? hv
    obtain rfl : maxOpen - 1 = less := by rw [hless, Nat.add_sub_cancel]
    have hservers : Follows (Tree.list (Server.ofTree (maxOpen - 2))) (maxOpen - 1)
        (asListOf? Server.ofJson?) := by
      refine Follows.list fun inner hinner => ?_
      obtain rfl : maxOpen - 2 = inner := by
        rw [show maxOpen - 2 = maxOpen - 1 - 1 from rfl, hinner, Nat.add_sub_cancel]
      exact Server.follows_ofTree _
    have hdraft := readsPair_add.toOption_foldMembers hservers
      (follows_strategyOfTree (maxOpen - 1)) hdistinct hms
    rw [ofTree, toOption_bind, hdraft, ofJson?, ← Draft.ofMembers?]
    cases Draft.ofMembers? ms with
    | none => rfl
    | some draft =>
      obtain ⟨servers, strategy, extra⟩ := draft
      cases servers <;> rfl

/-- What is used of a file that holds a value is the document of the value. -/
theorem usable?_of_holds {file : File} {v : Json} (h : file.Holds v) :
    file.usable? ofText = ofJson? v :=
  File.usable?_of_holds follows_ofTree h

/-- A document whose other members are kept, and those of its servers. -/
structure IsKept (document : Document) : Prop where
  server : ∀ s ∈ document.servers, s.IsKept (maxOpen - 3)
  extra : Members.AreKept names (maxOpen - 1) document.extra

/-- A document that is read has no other member under the name of a field, nor have its servers. -/
theorem isKept_of_ofTree {t : Tree} {document : Document} (h : ofTree t = .ok document) :
    document.IsKept := by
  cases t with
  | null | bool _ | number _ | string _ | array _ | broken => cases h
  | object members =>
    rw [ofTree, bind_eq_ok_iff] at h
    obtain ⟨draft, hdraft, h⟩ := h
    rw [bind_eq_ok_iff] at h
    obtain ⟨servers, hservers, h⟩ := h
    obtain rfl := Except.ok.inj h
    obtain ⟨a, b, extra, rfl, ha, -, hextra⟩ := readsPair_add.sound hdraft
    refine ⟨fun s hs => ?_, hextra⟩
    cases a with
    | none => cases hservers
    | some given =>
      obtain rfl := Except.ok.inj hservers
      obtain ⟨t, ht⟩ := ha given rfl
      cases t with
      | null | bool _ | number _ | string _ | object _ | broken => cases ht
      | array items =>
        obtain ⟨t, -, hst⟩ := exists_of_mem_mapM_ok ht hs
        exact Server.isKept_of_ofTree hst

end Document

/-! ## Policies -/

namespace Policy

/-- The document that says what a policy says. -/
def toDocument (p : Policy) : Document :=
  ⟨p.servers, some p.strategy, p.extra⟩

def ofJson? (v : Json) : Option Policy :=
  (Document.ofJson? v).bind fun document =>
    document.strategy.map fun strategy => ⟨document.servers, strategy, document.extra⟩

theorem isKept_of_mem_panelServers {nodes : List Node} {s : Server} (h : s ∈ panelServers nodes)
    (room : Nat) : s.IsKept room := by
  obtain ⟨entry, -, hs⟩ := List.mem_filterMap.mp h
  obtain ⟨server, domains, -, rfl⟩ := serverOfRoute?_eq_some_iff.mp hs
  exact Members.areKept_nil Server.names room

/-- The members of a policy are those of its document, or there are none. -/
theorem isKept_base (file : File) (fallback : String) (hasPublicIpv6 : Bool) :
    (base file fallback hasPublicIpv6).toDocument.IsKept := by
  unfold base
  split
  · rename_i document husable
    obtain ⟨t, ht⟩ := File.exists_of_usable? husable
    have hkept := Document.isKept_of_ofTree ht
    exact ⟨hkept.server, hkept.extra⟩
  · refine ⟨fun s hs => ?_, Members.areKept_nil _ _⟩
    obtain rfl := List.mem_singleton.mp hs
    exact Server.isKept_ofAddress _ _

theorem isKept_resolve (file : File) (fallback : String) (hasPublicIpv6 : Bool)
    (nodes : List Node) : (resolve file fallback hasPublicIpv6 nodes).toDocument.IsKept := by
  have hbase := isKept_base file fallback hasPublicIpv6
  refine ⟨fun s hs => ?_, hbase.extra⟩
  rcases List.mem_append.mp hs with hs | hs
  · exact hbase.server s hs
  · exact isKept_of_mem_panelServers hs _

/-- The members of a policy apart from those that are kept. -/
def ownMembers (p : Policy) : Members :=
  [("servers", .array (p.servers.map Server.toJson)), ("queryStrategy", .string p.strategy.name)]

theorem toJson_eq (p : Policy) : p.toJson = .object (p.ownMembers ++ p.extra) := rfl

section

variable {p : Policy} (h : p.toDocument.IsKept)

include h

theorem hasFieldsBefore : HasFieldsBefore Document.names p.ownMembers p.extra where
  named := by simp [ownMembers, Document.names]
  once := by simp [ownMembers, Members.keys]
  apart := h.extra.apart
  extra := h.extra.normal

/-- A policy is read as the document that says the same. -/
theorem documentOfJson?_toJson : Document.ofJson? p.toJson.normal = some p.toDocument := by
  have hfields := hasFieldsBefore h
  have hservers := hfields.get?_normal "servers"
  have hstrategy := hfields.get?_normal "queryStrategy"
  rw [if_pos (by decide)] at hservers hstrategy
  have hlist : asListOf? Server.ofJson? (Json.array (p.servers.map Server.toJson)).normal =
      some p.servers := by
    rw [normal_array, List.map_map]
    exact asListOf?_map fun s hs => (h.server s hs).ofJson?_toJson
  have hnotBlank : Text.isBlankText p.strategy.name = false := by
    cases p.strategy <;> decide +kernel
  have hword : Document.strategyOfJson? (.string p.strategy.name) = some (some p.strategy) := by
    rw [Document.strategyOfJson?, hnotBlank, QueryStrategy.ofText_name]
    rfl
  rw [toJson_eq, normal_object, Document.ofJson?, Document.Draft.ofMembers?, Members.pair?,
    Members.field?_of_get? hservers, Members.field?_of_get? hstrategy, hlist, normal, hword,
    ← Document.names, hfields.without_normal]
  rfl

/-- **Reading undoes writing.** -/
theorem ofJson?_toJson : ofJson? p.toJson.normal = some p := by
  rw [ofJson?, documentOfJson?_toJson h]
  rfl

/-- A policy nests no deeper than a document may. -/
theorem depth_toJson_le : p.toJson.depth ≤ maxOpen := by
  have hservers : depthItems (p.servers.map Server.toJson) ≤ maxOpen - 2 := by
    rw [depthItems_le_iff, List.forall_mem_map]
    intro s hs
    exact (h.server s hs).depth_toJson_le (by decide)
  have hmembers : depthMembers (p.ownMembers ++ p.extra) ≤ maxOpen - 1 := by
    rw [depthMembers_le_iff]
    intro m hm
    rcases List.mem_append.mp hm with hm | hm
    · simp only [ownMembers, List.mem_cons, List.not_mem_nil, or_false] at hm
      rcases hm with rfl | rfl
      · exact Nat.succ_le_succ hservers
      · exact Nat.zero_le _
    · exact h.extra.depth_le m hm
  rw [toJson_eq, depth]
  exact Nat.succ_le_succ hmembers

/-- No object of a policy repeats a key. -/
theorem hasDistinctKeys_toJson (read : Number → Option Number) :
    (ofValueBy read p.toJson).hasDistinctKeys = true := by
  rw [toJson_eq]
  refine hasDistinctKeys_ofValueBy_object (hasFieldsBefore h).nodup fun m hm => ?_
  rcases List.mem_append.mp hm with hm | hm
  · simp only [ownMembers, List.mem_cons, List.not_mem_nil, or_false] at hm
    rcases hm with rfl | rfl
    · refine hasDistinctKeys_ofValueBy_array fun v hv => ?_
      obtain ⟨s, hs, rfl⟩ := List.mem_map.mp hv
      exact (h.server s hs).hasDistinctKeys_toJson read
    · rfl
  · exact hasDistinctKeys_of_normal (h.extra.normal.value m hm)

end

end Policy

end EgressPolicy.Dns
