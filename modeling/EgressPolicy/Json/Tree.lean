import EgressPolicy.Json.Value

/-!
JSON texts as they are written.

A `Tree` keeps all that a reader of a text could object to later: numbers that are not finite,
repeated members in their order, and strings whose escapes are no valid Unicode. Where a text
leaves the grammar the tree has a `broken` leaf and nothing after it, so whoever walks a tree in
order meets the first fault of the text first.

`Tree.value?` is the value of a tree that is kept, and `Tree.isGrammatical` all that is asked of one
that is skipped.
-/

namespace EgressPolicy.Json

/-- The tree of a JSON text. A number is `none` beyond the finite numbers, and a string or a key is
`none` where its escapes do not form Unicode characters. Where a text breaks between two members
stands a member with such a key and a broken value. -/
inductive Tree where
  | null
  | bool (b : Bool)
  | number (n : Option Number)
  | string (s : Option String)
  | array (items : List Tree)
  | object (members : List (Option String × Tree))
  | broken
  deriving Inhabited

namespace Tree

/-- How many arrays and objects of a kept value may be open at once. -/
def maxOpen : Nat := 127

mutual

/-- The value of a tree in which at most `room` arrays and objects are open at once. Numbers have to
be finite and strings to be Unicode; of members with one key the last one counts. -/
def value? : Nat → Tree → Option Json
  | _, null => some .null
  | _, bool b => some (.bool b)
  | _, number n => n.map .number
  | _, string s => s.map .string
  | room, array items =>
    match room with
    | 0 => none
    | room + 1 => (values? room items).map .array
  | room, object members =>
    match room with
    | 0 => none
    | room + 1 => (members? room members []).map .object
  | _, broken => none

def values? : Nat → List Tree → Option (List Json)
  | _, [] => some []
  | room, t :: rest =>
    match value? room t with
    | none => none
    | some v => (values? room rest).map (v :: ·)

/-- The members of an object, added one after the other to those before them. -/
def members? : Nat → List (Option String × Tree) → Members → Option Members
  | _, [], acc => some acc
  | _, (none, _) :: _, _ => none
  | room, (some key, t) :: rest, acc =>
    match value? room t with
    | none => none
    | some v => members? room rest (Members.insert key v acc)

end

mutual

/-- Whether a text kept to the grammar. -/
def isGrammatical : Tree → Bool
  | array items => areGrammatical items
  | object members => haveGrammar members
  | broken => false
  | null | bool _ | number _ | string _ => true

def areGrammatical : List Tree → Bool
  | [] => true
  | t :: rest => t.isGrammatical && areGrammatical rest

def haveGrammar : List (Option String × Tree) → Bool
  | [] => true
  | (_, t) :: rest => t.isGrammatical && haveGrammar rest

end

mutual

/-- The tree of the text of a value. -/
def ofValue : Json → Tree
  | .null => null
  | .bool b => bool b
  | .number n => number (some n)
  | .string s => string (some s)
  | .array items => array (ofValues items)
  | .object members => object (ofMembers members)

def ofValues : List Json → List Tree
  | [] => []
  | v :: rest => ofValue v :: ofValues rest

def ofMembers : List (String × Json) → List (Option String × Tree)
  | [] => []
  | (k, v) :: rest => (some k, ofValue v) :: ofMembers rest

end

end Tree

end EgressPolicy.Json
