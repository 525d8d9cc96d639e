import EgressPolicy.Json.Decode
import EgressPolicy.Json.Equality
import EgressPolicy.Json.Text
import EgressPolicy.Text.Blank

/-!
Outbound descriptors.

A descriptor is a JSON object of which only `tag` and `protocol` are looked at. Everything else is
carried along untouched. Reading asks for a tag that is not blank and for nothing more, so that a
descriptor can also be a mere reference to an outbound that exists already.
-/

namespace EgressPolicy.Outbound

open Json (Tree Decoded DecodeError)

/-- An outbound as it is described. -/
structure Descriptor where
  tag : String
  /-- The protocol in the spelling of the description; empty where none is named. -/
  protocol : String
  /-- All other members. -/
  extra : Json.Members
  deriving DecidableEq

/-- Why an outbound cannot be registered. -/
inductive RegistrationError where
  /-- The description is not the JSON of a descriptor. -/
  | malformed (error : DecodeError)
  /-- The tag is blank. -/
  | missingTag
  | unsupportedProtocol (tag protocol : String)
  deriving DecidableEq, Repr

/-- The report of an error; for a malformed description what is known of its fault. -/
def RegistrationError.message : RegistrationError → Option String
  | malformed e => e.message
  | missingTag => some "outbound descriptor has no tag"
  | unsupportedProtocol tag protocol =>
    some ("outbound '" ++ tag ++ "' uses unsupported protocol '" ++ protocol ++ "'")

namespace Descriptor

/-- A descriptor of which the members up to some place have been read. -/
structure Draft where
  tag : Option String := none
  protocol : Option String := none
  extra : Json.Members := []

def Draft.add (room : Nat) (draft : Draft) (key : String) (t : Tree) : Decoded Draft :=
  if key = "tag" then do
    return { draft with tag := ← Tree.given "tag" draft.tag Tree.text t }
  else if key = "protocol" then do
    return { draft with protocol := ← Tree.given "protocol" draft.protocol Tree.text t }
  else do
    return { draft with extra := Json.Members.insert key (← t.kept room) draft.extra }

/-- The descriptor of an object; a tag or a protocol that is not given is empty. -/
def ofTree : Tree → Decoded Descriptor
  | .object members => do
    let draft ← Tree.foldMembers (Draft.add (Tree.maxOpen - 1)) {} members
    return ⟨draft.tag.getD "", draft.protocol.getD "", draft.extra⟩
  | _ => .error .malformed

/-- A descriptor whose tag is not blank. -/
def checkTag (d : Descriptor) : Except RegistrationError Unit :=
  if Text.isBlankText d.tag then .error .missingTag else .ok ()

def ofText (s : String) : Except RegistrationError Descriptor := do
  let d ← (Json.decodeText ofTree s).mapError .malformed
  d.checkTag
  return d

/-- The JSON of a descriptor: tag, protocol and the other members. -/
def toJson (d : Descriptor) : Json :=
  .object (("tag", .string d.tag) :: ("protocol", .string d.protocol) :: d.extra)

end Descriptor

end EgressPolicy.Outbound
