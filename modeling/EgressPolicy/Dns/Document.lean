import EgressPolicy.Dns.QueryStrategy
import EgressPolicy.Dns.Server
import EgressPolicy.File

/-!
The operator's DNS document.

A document is an object with a list of servers, perhaps a query strategy, and further members for
the engine, which are kept. A query strategy that is null or blank is none.
-/

namespace EgressPolicy.Dns

open Json (Tree Decoded)

structure Document where
  servers : List Server
  strategy : Option QueryStrategy
  extra : Json.Members
  deriving DecidableEq

namespace Document

def strategyOfTree (t : Tree) : Decoded (Option QueryStrategy) := do
  match ← t.nullable Tree.text with
  | none => return none
  | some s =>
    if Text.isBlankText s then return none
    else (QueryStrategy.ofText s |>.map some).mapError .unknownWord

/-- A document of which the members up to some place have been read. -/
structure Draft where
  servers : Option (List Server) := none
  strategy : Option (Option QueryStrategy) := none
  extra : Json.Members := []

/-- Takes one more member. The servers are two levels deep, so their values have less room. -/
def Draft.add (draft : Draft) (key : String) (t : Tree) : Decoded Draft :=
  if key = "servers" then do
    return { draft with
      servers :=
        ← Tree.given "servers" draft.servers (Tree.list (Server.ofTree (Tree.maxOpen - 2))) t }
  else if key = "queryStrategy" then do
    return { draft with
      strategy := ← Tree.given "queryStrategy" draft.strategy strategyOfTree t }
  else do
    return { draft with
      extra := Json.Members.insert key (← t.kept (Tree.maxOpen - 1)) draft.extra }

def ofTree : Tree → Decoded Document
  | .object members => do
    let draft ← Tree.foldMembers Draft.add {} members
    let servers ← Tree.required "servers" draft.servers
    return ⟨servers, draft.strategy.getD none, draft.extra⟩
  | _ => .error .malformed

def ofText (s : String) : Decoded Document :=
  Json.decodeText ofTree s

end Document

end EgressPolicy.Dns
