import EgressPolicy.Outbound.Target
import Std.Data.TreeSet

/-!
The registry of outbounds.

Targets stand in the order of their registration and no two share a tag. A target is never replaced
or removed: registering a tag that is there already changes nothing and succeeds, whatever the
descriptor says besides. The set of tags answers at once whether a tag is there.
-/

namespace EgressPolicy.Outbound

/-- The registered targets in order, and the set of their tags. -/
structure Registry where
  targets : List Target
  index : Std.TreeSet String

namespace Registry

def empty : Registry :=
  ⟨[], ∅⟩

def contains (r : Registry) (tag : String) : Bool :=
  r.index.contains tag

def get? (r : Registry) (tag : String) : Option Target :=
  r.targets.find? (·.tag == tag)

def tags (r : Registry) : List String :=
  r.targets.map Target.tag

def size (r : Registry) : Nat :=
  r.targets.length

def isEmpty (r : Registry) : Bool :=
  r.targets.isEmpty

/-- Appends a target whose tag is not there. -/
def insert (r : Registry) (t : Target) : Registry :=
  if r.contains t.tag then r else ⟨r.targets ++ [t], r.index.insert t.tag⟩

/-- The tags in the index after an insertion are the tags before it and the new one. -/
theorem contains_insert (r : Registry) (t : Target) (tag : String) :
    (r.insert t).contains tag = (t.tag == tag || r.contains tag) := by
  rw [insert]
  split
  · rename_i there
    cases same : t.tag == tag
    · simp
    · simp [← eq_of_beq same, there]
  · have sameTag : (compare t.tag tag == .eq) = (t.tag == tag) := by
      rw [Bool.eq_iff_iff]
      simp
    simp [contains, Std.TreeSet.contains_insert, sameTag]

/-- Appends the builtin targets that are not there. -/
def seed (r : Registry) : Registry :=
  Target.builtins.foldl insert r

def seeded : Registry :=
  empty.seed

/-- Makes sure that the tag of a descriptor is registered and answers with the tag. The descriptor
is built only where its tag is not there. -/
def register (r : Registry) (d : Descriptor) : Except RegistrationError String × Registry :=
  if r.contains d.tag then (.ok d.tag, r)
  else
    match Target.build d with
    | .ok t => (.ok t.tag, r.insert t)
    | .error e => (.error e, r)

def registerText (r : Registry) (s : String) : Except RegistrationError String × Registry :=
  match Descriptor.ofText s with
  | .ok d => r.register d
  | .error e => (.error e, r)

def definitions (r : Registry) : List Json :=
  r.targets.map Target.definition

end Registry

end EgressPolicy.Outbound
