import EgressPolicy.Override.Policy
import EgressPolicy.Proofs.Json.ShapeTheorems

/-!
Which overrides are taken.

`Policy.Fits` says what the overrides of an operator look like, as an object or as an array of their
fields, and the decoder takes just those (`Policy.takes_ofTree`). One node number that is not an
integer, or a strategy that nobody knows, is enough for the whole file to be refused.
-/

namespace EgressPolicy.Override

open Json Json.Tree

/-- The words for a domain strategy; a blank one chooses the default. -/
def strategyWords : List String :=
  ["", "asis", "ipifnonmatch", "ipondemand"]

theorem DomainStrategy.exists_ofText_iff (s : String) :
    (∃ d, ofText s = .ok d) ↔ Text.canonical s ∈ strategyWords := by
  simp only [ofText, strategyWords, List.mem_cons, List.not_mem_nil, or_false]
  split
  · rename_i h
    exact ⟨fun _ => h.imp_right Or.inl, fun _ => ⟨_, rfl⟩⟩
  · split
    · simp [*]
    · split
      · simp [*]
      · simp_all

namespace Policy

theorem takes_strategyOfTree : Takes strategyOfTree (IsWordOf strategyWords) := by
  intro t
  simp only [strategyOfTree, bind_eq_ok_iff, mapError_eq_ok_iff]
  constructor
  · rintro ⟨d, s, hs, hd⟩
    obtain ⟨s', rfl⟩ := (takes_text t).mp ⟨s, hs⟩
    obtain rfl : s' = s := Except.ok.inj hs
    exact ⟨s', rfl, (DomainStrategy.exists_ofText_iff s').mp ⟨d, hd⟩⟩
  · rintro ⟨s, rfl, hword⟩
    obtain ⟨d, hd⟩ := (DomainStrategy.exists_ofText_iff s).mpr hword
    exact ⟨d, s, rfl, hd⟩

def fields : List Field :=
  [⟨"domainStrategy", false, IsWordOf strategyWords⟩,
   ⟨"block_cn_nodes", false, IsListOf IsInt64⟩,
   ⟨"block_cn_ports", false, IsListOf IsInt64⟩,
   ⟨"block_cn_tags", false, IsListOf IsText⟩]

/-- Overrides are an object, of which other members are skipped, or an array of the fields. -/
def Fits (t : Tree) : Prop :=
  t.IsObjectOf fields IsAny ∨ t.IsTupleOf fields

def Draft.has (draft : Draft) (key : String) : Bool :=
  if key = "domainStrategy" then draft.strategy.isSome
  else if key = "block_cn_nodes" then draft.blocked.isSome
  else if key = "block_cn_ports" then draft.legacyPorts.isSome
  else if key = "block_cn_tags" then draft.legacySuffixes.isSome
  else false

theorem reads_add : Reads Draft.add Draft.has fields IsAny := by
  refine Reads.of_fields (by decide) ?_ ?_
  · simp only [fields, List.forall_mem_cons]
    refine ⟨?_, ?_, ?_, ?_, fun f hf => absurd hf List.not_mem_nil⟩
    · exact .of_given takes_strategyOfTree Draft.strategy
        (fun draft a => { draft with strategy := a })
        (fun _ _ => rfl) (fun _ => rfl) fun draft a key => by
          by_cases h : key = "domainStrategy" <;> simp [Draft.has, h]
    · exact .of_given takes_int64.list Draft.blocked
        (fun draft a => { draft with blocked := a })
        (fun _ _ => rfl) (fun _ => rfl) fun draft a key => by
          by_cases h : key = "block_cn_nodes" <;> simp [Draft.has, h]
    · exact .of_given takes_int64.list Draft.legacyPorts
        (fun draft a => { draft with legacyPorts := a })
        (fun _ _ => rfl) (fun _ => rfl) fun draft a key => by
          by_cases h : key = "block_cn_ports" <;> simp [Draft.has, h]
    · exact .of_given takes_text.list Draft.legacySuffixes
        (fun draft a => { draft with legacySuffixes := a })
        (fun _ _ => rfl) (fun _ => rfl) fun draft a key => by
          by_cases h : key = "block_cn_tags" <;> simp [Draft.has, h]
  · intro key hkey
    simp only [fields, List.map_cons, List.map_nil, List.mem_cons, List.not_mem_nil, or_false,
      not_or] at hkey
    obtain ⟨hstrategy, hnodes, hports, htags⟩ := hkey
    exact .of_takes takes_skipped (fun draft _ => draft)
      (fun draft t => by
        rw [Draft.add, if_neg hstrategy, if_neg hnodes, if_neg hports, if_neg htags])
      (fun draft => by
        rw [Draft.has, if_neg hstrategy, if_neg hnodes, if_neg hports, if_neg htags])
      fun _ _ => rfl

/-- An array of the fields is taken item by item, and a surplus item is refused. -/
theorem exists_ofItems_iff (items : List Tree) :
    (∃ draft, Draft.ofItems items = .ok draft) ↔ FitInOrder fields items := by
  have hstrategy := takes_strategyOfTree
  have hints := takes_int64.list
  have htexts := takes_text.list
  match items with
  | [] => simp [Draft.ofItems, FitInOrder, fields, pure, Except.pure]
  | [a] =>
    rw [Draft.ofItems, exists_bind_pure_eq_ok_iff, hstrategy a]
    simp [FitInOrder, fields]
  | [a, b] =>
    rw [Draft.ofItems, exists_bind_eq_ok_iff fun _ => exists_bind_pure_eq_ok_iff, hstrategy a,
      hints b]
    simp [FitInOrder, fields]
  | [a, b, c] =>
    rw [Draft.ofItems, exists_bind_eq_ok_iff fun _ => exists_bind_eq_ok_iff fun _ =>
      exists_bind_pure_eq_ok_iff, hstrategy a, hints b, hints c]
    simp [FitInOrder, fields]
  | [a, b, c, d] =>
    rw [Draft.ofItems, exists_bind_eq_ok_iff fun _ => exists_bind_eq_ok_iff fun _ =>
      exists_bind_eq_ok_iff fun _ => exists_bind_pure_eq_ok_iff, hstrategy a, hints b, hints c,
      htexts d]
    simp [FitInOrder, fields]
  | a :: b :: c :: d :: e :: rest => simp [Draft.ofItems, FitInOrder, fields, bind_eq_ok_iff]

/-- **Overrides.** A tree is taken exactly when all of it looks like overrides. -/
theorem takes_ofTree : Takes ofTree Fits := by
  intro t
  cases t with
  | null | bool _ | number _ | string _ | broken => simp [ofTree, Fits, IsObjectOf, IsTupleOf]
  | array items =>
    rw [ofTree, exists_bind_pure_eq_ok_iff, exists_ofItems_iff]
    simp [Fits, IsObjectOf, IsTupleOf]
  | object members =>
    -- No field is required, so every draft can be finished.
    have hfinish : ∀ draft : Draft, (∃ p, (pure draft.finish : Decoded Policy) = .ok p) ↔
        ∀ f ∈ fields, f.isRequired = true → draft.has f.name = true := by
      intro draft
      simp [fields, pure, Except.pure]
    have hobject := reads_add.takes_object {} (fun key => by simp [Draft.has]) hfinish members
    rw [ofTree, hobject]
    simp [Fits, isObjectOf_object_iff, IsTupleOf]

end Policy

end EgressPolicy.Override
