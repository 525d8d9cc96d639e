import EgressPolicy.File
import EgressPolicy.Json.Decode
import EgressPolicy.Node.Basic
import EgressPolicy.Override.DomainStrategy
import Std.Data.TreeSet

/-!
The operator's override policy for routing.

A policy names the domain strategy and the nodes whose inbound rejects a source. Nodes are named by
their number. An older schema names them by the end of their tag, which counts only where it is
asked for: by a port after an underscore, or by a suffix.
-/

namespace EgressPolicy.Override

open Json (Tree Decoded)

/-- The overrides of an operator. -/
structure Policy where
  strategy : DomainStrategy
  /-- The numbers of the nodes that reject the source. -/
  blocked : Std.TreeSet Int64
  /-- Older schema: the ports at the end of a tag. Numbers that are no ports match nothing. -/
  legacyPorts : List Int64
  /-- Older schema: the ends of a tag. An empty one matches nothing. -/
  legacySuffixes : List String

namespace Policy

/-- The policy where there is no file. -/
def default : Policy :=
  ⟨.asIs, ∅, [], []⟩

/-- Whether a tag ends with an underscore and a port. -/
def portMatches (tag : String) (port : Int64) : Bool :=
  decide (1 ≤ port) && decide (port ≤ 65535) &&
    ('_' :: Text.Decimal.digits port.toInt.toNat).isSuffixOf tag.toList

def suffixMatches (tag suffix : String) : Bool :=
  suffix ≠ "" && suffix.toList.isSuffixOf tag.toList

/-- Whether the older schema names a node. -/
def legacyBlocks (p : Policy) (tag : String) : Bool :=
  p.legacyPorts.any (portMatches tag) || p.legacySuffixes.any (suffixMatches tag)

/-- Whether a node rejects the source, with or without the older schema. -/
def blocks (p : Policy) (n : Node) (legacy : Bool) : Bool :=
  p.blocked.contains n.id || (legacy && p.legacyBlocks n.tag)

/-- Whether the older schema is used. -/
def hasLegacyEntries (p : Policy) : Bool :=
  !p.legacyPorts.isEmpty || !p.legacySuffixes.isEmpty

/-! ## Reading -/

/-- A policy of which the members up to some place have been read. -/
structure Draft where
  strategy : Option DomainStrategy := none
  blocked : Option (List Int64) := none
  legacyPorts : Option (List Int64) := none
  legacySuffixes : Option (List String) := none

def strategyOfTree (t : Tree) : Decoded DomainStrategy := do
  let s ← t.text
  (DomainStrategy.ofText s).mapError .unknownWord

def Draft.add (draft : Draft) (key : String) (t : Tree) : Decoded Draft :=
  if key = "domainStrategy" then do
    return { draft with
      strategy := ← Tree.given "domainStrategy" draft.strategy strategyOfTree t }
  else if key = "block_cn_nodes" then do
    return { draft with
      blocked := ← Tree.given "block_cn_nodes" draft.blocked (Tree.list Tree.int64) t }
  else if key = "block_cn_ports" then do
    return { draft with
      legacyPorts := ← Tree.given "block_cn_ports" draft.legacyPorts (Tree.list Tree.int64) t }
  else if key = "block_cn_tags" then do
    return { draft with
      legacySuffixes :=
        ← Tree.given "block_cn_tags" draft.legacySuffixes (Tree.list Tree.text) t }
  else do
    t.skipped
    return draft

/-- The policy of a draft; what is not given has its default. -/
def Draft.finish (draft : Draft) : Policy :=
  ⟨draft.strategy.getD .asIs, Std.TreeSet.ofList (draft.blocked.getD []),
    draft.legacyPorts.getD [], draft.legacySuffixes.getD []⟩

/-- The draft of an array of fields in the order of the structure. -/
def Draft.ofItems : List Tree → Decoded Draft
  | [] => return {}
  | strategy :: rest => do
    let draft : Draft := { strategy := ← strategyOfTree strategy }
    match rest with
    | [] => return draft
    | blocked :: rest =>
      let draft := { draft with blocked := ← blocked.list Tree.int64 }
      match rest with
      | [] => return draft
      | ports :: rest =>
        let draft := { draft with legacyPorts := ← ports.list Tree.int64 }
        match rest with
        | [] => return draft
        | suffixes :: rest =>
          let draft := { draft with legacySuffixes := ← suffixes.list Tree.text }
          if rest.isEmpty then return draft else .error .malformed

/-- The policy of a tree: an object, in which unknown members are skipped, or an array. -/
def ofTree : Tree → Decoded Policy
  | .object members => do
    let draft ← Tree.foldMembers Draft.add {} members
    return draft.finish
  | .array items => do
    let draft ← Draft.ofItems items
    return draft.finish
  | _ => .error .malformed

def ofText (s : String) : Decoded Policy :=
  Json.decodeText ofTree s

/-- The policy of a file; a file that is missing or cannot be used gives the default. -/
def ofFile (file : File) : Policy :=
  (file.usable? ofText).getD default

end Policy

end EgressPolicy.Override
