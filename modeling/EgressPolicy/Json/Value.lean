import EgressPolicy.Number.Value

/-!
JSON values.

The members of an object are a list, so that a value can also say in which order its members are
written. Values that are kept, looked up and compared are *normal*: at every level the keys ascend
by code point, which makes two equal objects equal lists. `Members.insert` keeps that order and
`Json.normal` brings a value into it; of two members with one key the later one stays.
-/

namespace EgressPolicy

inductive Json where
  | null
  | bool (b : Bool)
  | number (n : Number)
  | string (s : String)
  | array (items : List Json)
  | object (members : List (String × Json))
  deriving Inhabited

namespace Json

abbrev Members := List (String × Json)

namespace Members

def keys (members : Members) : List String :=
  members.map (·.1)

def get? (members : Members) (key : String) : Option Json :=
  members.lookup key

/-- Gives a key a value, in place of the one that it has; a new key goes before the first greater
one. -/
def insert (key : String) (value : Json) : Members → Members
  | [] => [(key, value)]
  | (k, v) :: rest =>
    if key < k then (key, value) :: (k, v) :: rest
    else if key = k then (key, value) :: rest
    else (k, v) :: insert key value rest

/-- Members in ascending order of their keys; of several with one key the last. -/
def ofList (members : List (String × Json)) : Members :=
  members.foldl (fun acc m => insert m.1 m.2 acc) []

/-- After an insertion the key has the value. -/
theorem get?_insert_self (key : String) (value : Json) (members : Members) :
    get? (insert key value members) key = some value := by
  induction members with
  | nil => simp [insert, get?]
  | cons m rest ih =>
    obtain ⟨k, v⟩ := m
    rw [insert]
    split
    · simp [get?]
    · split
      · simp [get?]
      · rename_i _ other
        have apart : (key == k) = false := by simpa using other
        simpa [get?, List.lookup_cons, apart] using ih

/-- An insertion changes no other key. -/
theorem get?_insert_of_ne {key other : String} (h : other ≠ key) (value : Json)
    (members : Members) :
    get? (insert key value members) other = get? members other := by
  have apart : (other == key) = false := by simpa using h
  induction members with
  | nil => simp [insert, get?, List.lookup_cons, apart]
  | cons m rest ih =>
    obtain ⟨k, v⟩ := m
    rw [insert]
    split
    · simp [get?, List.lookup_cons, apart]
    · split
      · rename_i _ same
        subst same
        simp [get?, List.lookup_cons, apart]
      · cases hk : other == k <;> simp_all [get?, List.lookup_cons]

end Members

def get? (key : String) : Json → Option Json
  | object members => Members.get? members key
  | _ => none

def asString? : Json → Option String
  | string s => some s
  | _ => none

mutual

/-- The value with the members of every object in ascending order of their keys. -/
def normal : Json → Json
  | array items => array (normalItems items)
  | object members => object (Members.ofList (normalMembers members))
  | null => null
  | bool b => bool b
  | number n => number n
  | string s => string s

def normalItems : List Json → List Json
  | [] => []
  | v :: rest => v.normal :: normalItems rest

/-- The members of an object, in the order they have, with normal values. -/
def normalMembers : List (String × Json) → List (String × Json)
  | [] => []
  | (k, v) :: rest => (k, v.normal) :: normalMembers rest

end

def ofStrings (texts : List String) : Json :=
  array (texts.map string)

end Json

end EgressPolicy
