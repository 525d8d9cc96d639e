import EgressPolicy.Routing.RuleList
import Mathlib.Data.List.Perm.Basic

/-!
Rule lists under any sequence of calls.

A list grows at either end, and the calls for the two ends may come in any order. One call puts its
rule before or behind what is there (`toList_apply`), so after a run the rules put in front stand in
reverse before the rules put behind (`toList_foldl_apply`). Every rule is there as often as it was
given (`perm_foldl_apply`), and the size counts the calls (`map_size_scanl_apply`).
-/

namespace EgressPolicy.Routing.RuleList

/-- A call that makes a list grow. -/
inductive Call where
  | insertHead (r : Rule)
  | append (r : Rule)
  deriving DecidableEq, Repr

namespace Call

def apply (l : RuleList) : Call → RuleList
  | insertHead r => l.insertHead r
  | append r => l.append r

def rule : Call → Rule
  | insertHead r => r
  | append r => r

/-- The rule that a call puts before all others. -/
def front? : Call → Option Rule
  | insertHead r => some r
  | append _ => none

/-- The rule that a call puts after all others. -/
def back? : Call → Option Rule
  | insertHead _ => none
  | append r => some r

end Call

/-- The list that a sequence of calls makes of nothing. -/
def ofCalls (calls : List Call) : RuleList :=
  calls.foldl Call.apply empty

/-! ## One call -/

theorem toList_apply (l : RuleList) (c : Call) :
    (c.apply l).toList = c.front?.toList ++ l.toList ++ c.back?.toList := by
  cases c with
  | insertHead r => simp [Call.apply, Call.front?, Call.back?]
  | append r => simp [Call.apply, Call.front?, Call.back?]

theorem perm_apply (l : RuleList) (c : Call) : (c.apply l).toList.Perm (l.toList ++ [c.rule]) := by
  cases c with
  | insertHead r =>
    rw [Call.apply, toList_insertHead]
    exact (List.perm_append_singleton r l.toList).symm
  | append r =>
    rw [Call.apply, toList_append]
    exact List.Perm.refl _

theorem size_apply (l : RuleList) (c : Call) : (c.apply l).size = l.size + 1 := by
  have hlength := (perm_apply l c).length_eq
  rwa [length_toList, List.length_append, length_toList] at hlength

theorem isEmpty_eq (l : RuleList) : l.isEmpty = (l.size == 0) := by
  rw [Bool.eq_iff_iff]
  simp [isEmpty, size]

/-! ## A run of calls -/

theorem toList_foldl_apply : ∀ (calls : List Call) (l : RuleList),
    (calls.foldl Call.apply l).toList =
      (calls.filterMap Call.front?).reverse ++ l.toList ++ calls.filterMap Call.back?
  | [], l => by simp
  | c :: rest, l => by
    rw [List.foldl_cons, toList_foldl_apply rest, toList_apply]
    cases c with
    | insertHead r => simp [List.filterMap_cons, Call.front?, Call.back?]
    | append r => simp [List.filterMap_cons, Call.front?, Call.back?]

theorem perm_foldl_apply : ∀ (calls : List Call) (l : RuleList),
    (calls.foldl Call.apply l).toList.Perm (l.toList ++ calls.map Call.rule)
  | [], l => by simp
  | c :: rest, l => by
    have hrest := perm_foldl_apply rest (c.apply l)
    have hstep := (perm_apply l c).append_right (rest.map Call.rule)
    rw [List.append_assoc, List.singleton_append] at hstep
    exact hrest.trans hstep

/-- The sizes of the lists that a run goes through, the one that it starts from among them. -/
theorem map_size_scanl_apply : ∀ (calls : List Call) (l : RuleList),
    (calls.scanl Call.apply l).map size = List.range' l.size (calls.length + 1)
  | [], l => by simp
  | c :: rest, l => by
    have hrest := map_size_scanl_apply rest (c.apply l)
    rw [size_apply] at hrest
    rw [List.scanl_cons, List.map_cons, hrest, List.length_cons]
    exact List.range'_succ.symm

/-- **Any sequence of calls.** The list that is built has the rules put in front, the last one
first, and then the rules put behind, in their order; no rule is lost, given twice or changed.
Before the first call and after each one the list knows the number of calls so far, and whether
there was none. -/
theorem ofCalls_interleaved (calls : List Call) :
    (ofCalls calls).toList =
      (calls.filterMap Call.front?).reverse ++ calls.filterMap Call.back? ∧
    (ofCalls calls).toList.Perm (calls.map Call.rule) ∧
    (calls.scanl Call.apply empty).map (fun l => (l.size, l.isEmpty)) =
      (List.range (calls.length + 1)).map fun k => (k, k == 0) := by
  have hlist := toList_foldl_apply calls empty
  have hperm := perm_foldl_apply calls empty
  have hsizes := map_size_scanl_apply calls empty
  rw [toList_empty, List.append_nil] at hlist
  rw [toList_empty, List.nil_append] at hperm
  refine ⟨hlist, hperm, ?_⟩
  have hpairs : (fun l : RuleList => (l.size, l.isEmpty)) = (fun k => (k, k == 0)) ∘ size := by
    funext l
    simp [isEmpty_eq]
  rw [hpairs, ← List.map_map, hsizes, List.range_eq_range']
  rfl

/-- The calls for the two ends do not disturb each other. -/
example :
    let r (tag : String) : Rule := .catchAll tag "direct"
    (ofCalls [.append (r "c"), .insertHead (r "b"), .insertHead (r "a"), .append (r "d")]).toList =
      [r "a", r "b", r "c", r "d"] := by
  rfl

end EgressPolicy.Routing.RuleList
