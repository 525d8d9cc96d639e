import EgressPolicy.Yaml.Token

/-!
The nodes of a YAML text.

A node is a scalar, a sequence or a mapping. Where a key, a value or an entry is left out stands a
plain scalar without text.
-/

namespace EgressPolicy.Yaml

inductive Node where
  /-- A scalar, and whether it is written without quotes and indicators. -/
  | scalar (isPlain : Bool) (text : String)
  | sequence (items : List Node)
  | mapping (entries : List (Node × Node))
  deriving Inhabited

namespace Node

/-- What stands where a node is left out. -/
def omitted : Node :=
  scalar true ""

/-- Whether a list of tokens starts with one of some tokens. -/
def startsWith (tokens : List Token) (choices : List Token) : Bool :=
  tokens.head?.any choices.contains

mutual

/-- The node at the front of a list of tokens. Block collections count where `block` is set, and
entries without a deeper indentation where `flush` is set. The first number bounds the calls. -/
def read (block flush : Bool) : Nat → List Token → Option (Node × List Token)
  | 0, _ => none
  | fuel + 1, tokens =>
    match tokens with
    | .scalar isPlain text :: rest => some (.scalar isPlain text, rest)
    | .flowSequenceStart :: rest => do
      let (items, rest) ← readFlowItems true fuel rest
      return (.sequence items, rest)
    | .flowMappingStart :: rest => do
      let (entries, rest) ← readFlowEntries true fuel rest
      return (.mapping entries, rest)
    | .blockEntry :: _ =>
      if flush then do
        let (items, rest) ← readFlushItems fuel tokens
        return (.sequence items, rest)
      else none
    | .blockSequenceStart :: rest =>
      if block then do
        let (items, rest) ← readBlockItems fuel rest
        return (.sequence items, rest)
      else none
    | .blockMappingStart :: rest =>
      if block then do
        let (entries, rest) ← readBlockEntries fuel rest
        return (.mapping entries, rest)
      else none
    | _ => none

/-- A node, or nothing before one of some tokens. -/
def readUnless (stops : List Token) (block flush : Bool) :
    Nat → List Token → Option (Node × List Token)
  | 0, _ => none
  | fuel + 1, tokens =>
    if startsWith tokens stops then some (omitted, tokens) else read block flush fuel tokens

/-- The items of a block sequence up to its end. -/
def readBlockItems : Nat → List Token → Option (List Node × List Token)
  | 0, _ => none
  | fuel + 1, .blockEntry :: rest => do
    let (item, rest) ← readUnless [.blockEntry, .blockEnd] true false fuel rest
    let (items, rest) ← readBlockItems fuel rest
    return (item :: items, rest)
  | _ + 1, .blockEnd :: rest => some ([], rest)
  | _ + 1, _ => none

/-- The items of a sequence that is not indented, up to whatever follows it. -/
def readFlushItems : Nat → List Token → Option (List Node × List Token)
  | 0, _ => none
  | fuel + 1, .blockEntry :: rest => do
    let (item, rest) ← readUnless [.blockEntry, .key, .value, .blockEnd] true false fuel rest
    let (items, rest) ← readFlushItems fuel rest
    return (item :: items, rest)
  | _ + 1, rest => some ([], rest)

/-- The entries of a block mapping up to its end. -/
def readBlockEntries : Nat → List Token → Option (List (Node × Node) × List Token)
  | 0, _ => none
  | fuel + 1, .key :: rest => do
    let (key, rest) ← readUnless [.key, .value, .blockEnd] true true fuel rest
    let (value, rest) ←
      match rest with
      | .value :: rest => readUnless [.key, .value, .blockEnd] true true fuel rest
      | rest => some (omitted, rest)
    let (entries, rest) ← readBlockEntries fuel rest
    return ((key, value) :: entries, rest)
  | _ + 1, .blockEnd :: rest => some ([], rest)
  | _ + 1, _ => none

/-- The items of a sequence in brackets up to the closing one. An item may be a single entry. -/
def readFlowItems (isFirst : Bool) : Nat → List Token → Option (List Node × List Token)
  | 0, _ => none
  | fuel + 1, tokens =>
    match tokens, isFirst with
    | .flowSequenceEnd :: rest, _ => some ([], rest)
    | .flowEntry :: .flowSequenceEnd :: rest, false => some ([], rest)
    | .flowEntry :: rest, false => readFlowItem fuel rest
    | _, true => readFlowItem fuel tokens
    | _, false => none

/-- An item of a sequence in brackets and the items after it. Where the key of an entry is left out,
the token in its place goes with it: neither a colon nor a comma nor the closing bracket counts
there. -/
def readFlowItem : Nat → List Token → Option (List Node × List Token)
  | 0, _ => none
  | fuel + 1, tokens => do
    let (item, rest) ←
      match tokens with
      | .key :: rest => do
        let (key, rest) ←
          if startsWith rest [.value, .flowEntry, .flowSequenceEnd] then
            some (omitted, rest.drop 1)
          else read false false fuel rest
        let (value, rest) ←
          match rest with
          | .value :: rest => readUnless [.flowEntry, .flowSequenceEnd] false false fuel rest
          | rest => some (omitted, rest)
        some (.mapping [(key, value)], rest)
      | tokens => read false false fuel tokens
    let (items, rest) ← readFlowItems false fuel rest
    return (item :: items, rest)

/-- The entries of a mapping in braces up to the closing one. -/
def readFlowEntries (isFirst : Bool) : Nat → List Token → Option (List (Node × Node) × List Token)
  | 0, _ => none
  | fuel + 1, tokens =>
    match tokens, isFirst with
    | .flowMappingEnd :: rest, _ => some ([], rest)
    | .flowEntry :: .flowMappingEnd :: rest, false => some ([], rest)
    | .flowEntry :: rest, false => readFlowPair fuel rest
    | _, true => readFlowPair fuel tokens
    | _, false => none

/-- An entry of a mapping in braces and the entries after it. A node without a key token before it
is a key without a value. -/
def readFlowPair : Nat → List Token → Option (List (Node × Node) × List Token)
  | 0, _ => none
  | fuel + 1, tokens => do
    let (entry, rest) ←
      match tokens with
      | .key :: rest => do
        let (key, rest) ←
          readUnless [.value, .flowEntry, .flowMappingEnd] false false fuel rest
        let (value, rest) ←
          match rest with
          | .value :: rest => readUnless [.flowEntry, .flowMappingEnd] false false fuel rest
          | rest => some (omitted, rest)
        some ((key, value), rest)
      | tokens => do
        let (key, rest) ← read false false fuel tokens
        some ((key, omitted), rest)
    let (entries, rest) ← readFlowEntries false fuel rest
    return (entry :: entries, rest)

end

/-- The node of the only document of a list of tokens. The inner answer is `none` where there is no
document, the outer one where the tokens are not those of one document at most. -/
def ofTokens? (tokens : List Token) : Option (Option Node) := do
  let fuel := 4 * tokens.length + 4
  match tokens with
  | [] => return none
  | .documentStart :: rest =>
    if rest.isEmpty then return some omitted
    else
      let (node, rest) ←
        readUnless [.documentStart, .documentEnd] true false fuel rest
      if rest.all (· == .documentEnd) then return some node else none
  | tokens =>
    let (node, rest) ← read true false fuel tokens
    if rest.all (· == .documentEnd) then return some node else none

/-- The node of a text with one document at most. -/
def ofText? (text : String) : Option (Option Node) := do
  ofTokens? (← Token.listOfText? text)

end Node

end EgressPolicy.Yaml
