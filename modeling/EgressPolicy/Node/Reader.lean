import EgressPolicy.Json.Decode
import EgressPolicy.Node.Basic

/-!
Reading lists of nodes.

Nodes and routes are objects, in which unknown members are skipped, or arrays of their fields in the
order `id`, `tag`, `routes` and `id`, `action`, `match`, `action_value`; fields with a default may
be left off at the end of an array. The patterns of a route are a list, or one text with a comma or
a line end between two of them, or null.
-/

namespace EgressPolicy

open Json (Tree Decoded)

namespace Route

/-- The pieces of a text between commas and line ends. -/
def pieces (s : String) : List String :=
  (s.toList.splitOnP fun c => c == ',' || c == '\n').map String.ofList

/-- The patterns of a route, in any of their spellings. -/
def patternsOfTree : Tree → Decoded (List String)
  | .null => .ok []
  | .string (some s) => .ok (pieces s)
  | t => t.list Tree.text

/-- A route of which the members up to some place have been read. -/
structure Draft where
  id : Option (Option Int64) := none
  action : Option String := none
  patterns : Option (List String) := none
  value : Option (Option String) := none

def Draft.add (draft : Draft) (key : String) (t : Tree) : Decoded Draft :=
  if key = "id" then do
    return { draft with id := ← Tree.given "id" draft.id (Tree.nullable Tree.int64) t }
  else if key = "action" then do
    return { draft with action := ← Tree.given "action" draft.action Tree.text t }
  else if key = "match" then do
    return { draft with patterns := ← Tree.given "match" draft.patterns patternsOfTree t }
  else if key = "action_value" then do
    return { draft with
      value := ← Tree.given "action_value" draft.value (Tree.nullable Tree.text) t }
  else do
    t.skipped
    return draft

def Draft.finish (draft : Draft) : Decoded Route := do
  let action ← Tree.required "action" draft.action
  return ⟨draft.id.getD none, action, draft.patterns.getD [], draft.value.getD none⟩

def ofItems : List Tree → Decoded Route
  | id :: action :: rest => do
    let id ← id.nullable Tree.int64
    let action ← action.text
    match rest with
    | [] => return ⟨id, action, [], none⟩
    | patterns :: rest =>
      let patterns ← patternsOfTree patterns
      match rest with
      | [] => return ⟨id, action, patterns, none⟩
      | value :: rest =>
        let value ← value.nullable Tree.text
        if rest.isEmpty then return ⟨id, action, patterns, value⟩ else .error .malformed
  | _ => .error .malformed

def ofTree : Tree → Decoded Route
  | .object members => do
    let draft ← Tree.foldMembers Draft.add {} members
    draft.finish
  | .array items => ofItems items
  | _ => .error .malformed

end Route

namespace Node

/-- A node of which the members up to some place have been read. -/
structure Draft where
  id : Option Int64 := none
  tag : Option String := none
  routes : Option (List Route) := none

def Draft.add (draft : Draft) (key : String) (t : Tree) : Decoded Draft :=
  if key = "id" then do
    return { draft with id := ← Tree.given "id" draft.id Tree.int64 t }
  else if key = "tag" then do
    return { draft with tag := ← Tree.given "tag" draft.tag Tree.text t }
  else if key = "routes" then do
    return { draft with routes := ← Tree.given "routes" draft.routes (Tree.list Route.ofTree) t }
  else do
    t.skipped
    return draft

def Draft.finish (draft : Draft) : Decoded Node := do
  let id ← Tree.required "id" draft.id
  let tag ← Tree.required "tag" draft.tag
  return ⟨id, tag, draft.routes.getD []⟩

def ofItems : List Tree → Decoded Node
  | id :: tag :: rest => do
    let id ← id.int64
    let tag ← tag.text
    match rest with
    | [] => return ⟨id, tag, []⟩
    | routes :: rest =>
      let routes ← routes.list Route.ofTree
      if rest.isEmpty then return ⟨id, tag, routes⟩ else .error .malformed
  | _ => .error .malformed

def ofTree : Tree → Decoded Node
  | .object members => do
    let draft ← Tree.foldMembers Draft.add {} members
    draft.finish
  | .array items => ofItems items
  | _ => .error .malformed

def listOfText (s : String) : Decoded (List Node) :=
  Json.decodeText (Tree.list ofTree) s

end Node

def Route.ofText (s : String) : Decoded Route :=
  Json.decodeText Route.ofTree s

end EgressPolicy
