import EgressPolicy.Json.Decode
import EgressPolicy.Json.Equality
import EgressPolicy.Json.Text

/-!
Name servers.

A server is written as its address alone or as an object with an address, perhaps the domains that
it is asked for, and further members for the engine, which are kept. A server that is neither is a
plain mismatch: its own faults are not reported.
-/

namespace EgressPolicy.Dns

open Json (Tree Decoded)

/-- A name server. -/
structure Server where
  address : String
  /-- The domains that the server is asked for; none means all. -/
  domains : List String
  /-- The other members of its object. -/
  extra : Json.Members
  deriving DecidableEq

namespace Server

def ofAddress (address : String) : Server :=
  ⟨address, [], []⟩

/-- A server of which the members up to some place have been read. -/
structure Draft where
  address : Option String := none
  domains : Option (List String) := none
  extra : Json.Members := []

def Draft.add (room : Nat) (draft : Draft) (key : String) (t : Tree) : Decoded Draft :=
  if key = "address" then do
    return { draft with address := ← Tree.given "address" draft.address Tree.text t }
  else if key = "domains" then do
    return { draft with domains := ← Tree.given "domains" draft.domains (Tree.list Tree.text) t }
  else do
    return { draft with extra := Json.Members.insert key (← t.kept room) draft.extra }

/-- The server of the members of an object, whose values have `room` for arrays and objects. -/
def ofMembers (room : Nat) (members : List (Option String × Tree)) : Decoded Server := do
  let draft ← Tree.foldMembers (Draft.add room) {} members
  let address ← Tree.required "address" draft.address
  return ⟨address, draft.domains.getD [], draft.extra⟩

def ofTree (room : Nat) : Tree → Decoded Server
  | .string (some address) => .ok (ofAddress address)
  | .object members => (ofMembers (room - 1) members).mapError fun _ => .malformed
  | _ => .error .malformed

def ofText (s : String) : Decoded Server :=
  Json.decodeText (ofTree Tree.maxOpen) s

/-- The JSON of a server: its address, its domains if it has some, and the other members. -/
def toJson (s : Server) : Json :=
  .object
    (("address", .string s.address) ::
      ((if s.domains = [] then [] else [("domains", Json.ofStrings s.domains)]) ++ s.extra))

end Server

end EgressPolicy.Dns
