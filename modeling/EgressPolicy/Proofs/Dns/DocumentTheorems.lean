import EgressPolicy.Dns.Document
import EgressPolicy.Proofs.Json.ShapeTheorems
import EgressPolicy.Proofs.Text.BlankTheorems

/-!
Which DNS documents are taken.

`Server.Fits` and `Document.Fits` say what a server and a document look like, and the decoders take
just those (`Server.takes_ofTree`, `Document.takes_ofTree`). A document with one server that does
not fit, without servers, or with a query strategy that nobody knows is refused as a whole.
-/

namespace EgressPolicy.Dns

open Json Json.Tree

/-! ## Query strategies -/

/-- The words for a query strategy; a blank one chooses none. -/
def strategyWords : List String :=
  ["", "useip", "useipv4", "useipv6", "useipv4v6"]

theorem QueryStrategy.exists_ofText_iff (s : String) :
    (∃ q, ofText s = .ok q) ↔ Text.canonical s ∈ ["useip", "useipv4", "useipv6", "useipv4v6"] := by
  simp only [ofText, List.mem_cons, List.not_mem_nil, or_false]
  split
  · simp [*]
  · split
    · simp [*]
    · split
      · simp [*]
      · split
        · simp [*]
        · simp [*]

theorem Document.takes_strategyOfTree :
    Takes strategyOfTree (IsNullOr (IsWordOf strategyWords)) := by
  intro t
  -- What a text chooses; a blank one chooses nothing.
  have hchoice : ∀ s, (∃ q, (if Text.isBlankText s = true then pure none
      else ((QueryStrategy.ofText s).map some).mapError DecodeError.unknownWord) = .ok q) ↔
        Text.canonical s ∈ strategyWords := by
    intro s
    rw [strategyWords, List.mem_cons, Text.canonical_eq_empty_iff]
    cases Text.isBlankText s with
    | true => simp [pure, Except.pure]
    | false =>
      simp only [Bool.false_eq_true, if_false, false_or, mapError_eq_ok_iff, exists_map_eq_ok_iff,
        QueryStrategy.exists_ofText_iff]
  rw [strategyOfTree]
  simp only [bind_eq_ok_iff]
  constructor
  · rintro ⟨q, word, hword, hq⟩
    rcases (takes_text.nullable t).mp ⟨word, hword⟩ with rfl | ⟨s, rfl⟩
    · exact Or.inl rfl
    · obtain rfl : some s = word := Except.ok.inj hword
      exact Or.inr ⟨s, rfl, (hchoice s).mp ⟨q, hq⟩⟩
  · rintro (rfl | ⟨s, rfl, hword⟩)
    · exact ⟨none, none, rfl, rfl⟩
    · obtain ⟨q, hq⟩ := (hchoice s).mpr hword
      exact ⟨q, some s, rfl, hq⟩

/-! ## Servers -/

namespace Server

def fields : List Field :=
  [⟨"address", true, IsText⟩, ⟨"domains", false, IsListOf IsText⟩]

/-- A server is its address alone or an object. -/
def Fits (room : Nat) (t : Tree) : Prop :=
  t.IsText ∨ t.IsObjectOf fields (IsKept (room - 1))

def Draft.has (draft : Draft) (key : String) : Bool :=
  if key = "address" then draft.address.isSome
  else if key = "domains" then draft.domains.isSome
  else false

theorem reads_add (room : Nat) : Reads (Draft.add room) Draft.has fields (IsKept room) := by
  refine Reads.of_fields (by decide) ?_ ?_
  · simp only [fields, List.forall_mem_cons]
    refine ⟨?_, ?_, fun f hf => absurd hf List.not_mem_nil⟩
    · exact .of_given takes_text Draft.address (fun draft a => { draft with address := a })
        (fun _ _ => rfl) (fun _ => rfl) fun draft a key => by
          by_cases h : key = "address" <;> simp [Draft.has, h]
    · exact .of_given takes_text.list Draft.domains (fun draft a => { draft with domains := a })
        (fun _ _ => rfl) (fun _ => rfl) fun draft a key => by
          by_cases h : key = "domains" <;> simp [Draft.has, h]
  · intro key hkey
    simp only [fields, List.map_cons, List.map_nil, List.mem_cons, List.not_mem_nil, or_false,
      not_or] at hkey
    exact .of_takes (takes_kept room)
      (fun draft v => { draft with extra := Members.insert key v draft.extra })
      (fun draft t => by rw [Draft.add, if_neg hkey.1, if_neg hkey.2])
      (fun draft => by rw [Draft.has, if_neg hkey.1, if_neg hkey.2]) fun _ _ => rfl

theorem takes_ofTree (room : Nat) : Takes (ofTree room) (Fits room) := by
  intro t
  cases t with
  | null | bool _ | number _ | array _ | broken => simp [ofTree, Fits, IsText, IsObjectOf]
  | string s => cases s <;> simp [ofTree, Fits, IsText, IsObjectOf]
  | object members =>
    have hfinish : ∀ draft : Draft, (∃ a : Server, (do
          let address ← required "address" draft.address
          return ⟨address, draft.domains.getD [], draft.extra⟩ : Decoded Server) = .ok a) ↔
        ∀ f ∈ fields, f.isRequired = true → draft.has f.name = true := by
      intro draft
      rw [exists_bind_pure_eq_ok_iff, exists_required_eq_ok_iff]
      simp [fields, Draft.has]
    have hobject := (reads_add (room - 1)).takes_object {} (fun key => by
      simp [Draft.has]) hfinish members
    simp only [ofTree, mapError_eq_ok_iff, ofMembers, hobject, Fits, IsText, reduceCtorEq,
      exists_false, false_or, isObjectOf_object_iff]

end Server

/-! ## Documents -/

namespace Document

def fields : List Field :=
  [⟨"servers", true, IsListOf (Server.Fits (maxOpen - 2))⟩,
   ⟨"queryStrategy", false, IsNullOr (IsWordOf strategyWords)⟩]

/-- A document is an object with servers, and its other members are kept. -/
def Fits (t : Tree) : Prop :=
  t.IsObjectOf fields (IsKept (maxOpen - 1))

def Draft.has (draft : Draft) (key : String) : Bool :=
  if key = "servers" then draft.servers.isSome
  else if key = "queryStrategy" then draft.strategy.isSome
  else false

theorem reads_add : Reads Draft.add Draft.has fields (IsKept (maxOpen - 1)) := by
  refine Reads.of_fields (by decide) ?_ ?_
  · simp only [fields, List.forall_mem_cons]
    refine ⟨?_, ?_, fun f hf => absurd hf List.not_mem_nil⟩
    · exact .of_given (Server.takes_ofTree (maxOpen - 2)).list Draft.servers
        (fun draft a => { draft with servers := a })
        (fun _ _ => rfl) (fun _ => rfl) fun draft a key => by
          by_cases h : key = "servers" <;> simp [Draft.has, h]
    · exact .of_given takes_strategyOfTree Draft.strategy
        (fun draft a => { draft with strategy := a })
        (fun _ _ => rfl) (fun _ => rfl) fun draft a key => by
          by_cases h : key = "queryStrategy" <;> simp [Draft.has, h]
  · intro key hkey
    simp only [fields, List.map_cons, List.map_nil, List.mem_cons, List.not_mem_nil, or_false,
      not_or] at hkey
    exact .of_takes (takes_kept (maxOpen - 1))
      (fun draft v => { draft with extra := Members.insert key v draft.extra })
      (fun draft t => by rw [Draft.add, if_neg hkey.1, if_neg hkey.2])
      (fun draft => by rw [Draft.has, if_neg hkey.1, if_neg hkey.2]) fun _ _ => rfl

/-- **DNS documents.** A tree is taken exactly when all of it looks like a document. -/
theorem takes_ofTree : Takes ofTree Fits := by
  refine reads_add.takes {} (fun key => by simp [Draft.has]) ?_ (fun _ => rfl) ?_
  · intro draft
    rw [exists_bind_pure_eq_ok_iff, exists_required_eq_ok_iff]
    simp [fields, Draft.has]
  · intro t ht
    cases t with
    | object members => exact absurd rfl (ht members)
    | null | bool _ | number _ | string _ | array _ | broken => exact ⟨_, rfl⟩

end Document

end EgressPolicy.Dns
