import EgressPolicy.Routing.Rule

/-!
Lists of rules that grow at both ends.

The rules put in front and the rules put behind are held apart, the ones behind in reverse, so that
both kinds of growth take one step. `RuleList.toList` is the list itself.
-/

namespace EgressPolicy.Routing

/-- A list of rules in two parts. -/
structure RuleList where
  /-- The first part, in order. -/
  front : List Rule
  /-- The second part, in reverse. -/
  back : List Rule
  deriving DecidableEq, Repr

namespace RuleList

def empty : RuleList :=
  ⟨[], []⟩

def toList (l : RuleList) : List Rule :=
  l.front ++ l.back.reverse

def insertHead (l : RuleList) (r : Rule) : RuleList :=
  { l with front := r :: l.front }

def append (l : RuleList) (r : Rule) : RuleList :=
  { l with back := r :: l.back }

def size (l : RuleList) : Nat :=
  l.front.length + l.back.length

def isEmpty (l : RuleList) : Bool :=
  l.front.isEmpty && l.back.isEmpty

@[simp] theorem toList_empty : empty.toList = [] := rfl

@[simp] theorem toList_insertHead (l : RuleList) (r : Rule) :
    (l.insertHead r).toList = r :: l.toList := rfl

@[simp] theorem toList_append (l : RuleList) (r : Rule) :
    (l.append r).toList = l.toList ++ [r] := by
  simp [append, toList]

@[simp] theorem length_toList (l : RuleList) : l.toList.length = l.size := by
  simp [toList, size]

end RuleList

end EgressPolicy.Routing
