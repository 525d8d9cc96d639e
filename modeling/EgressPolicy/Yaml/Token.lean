import EgressPolicy.Yaml.Scalar

/-!
The tokens of a YAML text.

Indentation becomes tokens here: a block collection opens where a key or an entry stands deeper than
before and closes where a line starts less deep. What makes a key is the colon after it, so a token
that could start a key is remembered, and the key token is put before it when the colon comes. Such
a key has to stand on one line within 1024 bytes of its colon.

Directives, anchors, aliases and tags are not part of the settings language and are refused.
-/

namespace EgressPolicy.Yaml

/-- A token. The end of the text has none. -/
inductive Token where
  | documentStart
  | documentEnd
  | blockSequenceStart
  | blockMappingStart
  | blockEnd
  | flowSequenceStart
  | flowSequenceEnd
  | flowMappingStart
  | flowMappingEnd
  | blockEntry
  | flowEntry
  | key
  | value
  /-- A scalar, and whether it is written without quotes and indicators. -/
  | scalar (isPlain : Bool) (text : String)
  deriving DecidableEq, Repr

/-- A token that a colon may turn into a key. -/
structure KeyCandidate where
  /-- Whether nothing else could stand at this place. -/
  isRequired : Bool
  /-- The number of tokens before it. -/
  position : Nat
  place : Cursor

/-- A text in the course of being cut into tokens. -/
structure Scan where
  cursor : Cursor
  tokens : Array Token := #[]
  /-- The column of the innermost block collection; `-1` outside of all. -/
  indent : Int := -1
  /-- The columns of the block collections around it. -/
  outer : List Int := []
  /-- Whether a key may start here. -/
  allowsKey : Bool := true
  /-- The candidate of the innermost brackets, or of the block around all brackets. -/
  candidate : Option KeyCandidate := none
  /-- The candidates of the brackets around, inner ones first: one for each open bracket. -/
  around : List (Option KeyCandidate) := []

namespace Scan

/-- Whether brackets are open. -/
def inFlow (s : Scan) : Bool :=
  !s.around.isEmpty

def push (s : Scan) (t : Token) : Scan :=
  { s with tokens := s.tokens.push t }

/-- Puts a token where `position` tokens stand before it. -/
def insertAt (s : Scan) (position : Nat) (t : Token) : Scan :=
  { s with
    tokens := s.tokens.extract 0 position ++ #[t] ++ s.tokens.extract position s.tokens.size }

/-- Appends the token of an indicator of some characters. -/
def pushIndicator (s : Scan) (length : Nat) (t : Token) : Scan :=
  { s.push t with cursor := s.cursor.skip length }

/-! ## Candidates for keys -/

/-- Gives up the candidate. One that nothing else could be is a fault. -/
def dropCandidate (s : Scan) : Option Scan :=
  if s.candidate.any (·.isRequired) then none else some { s with candidate := none }

/-- Remembers the token that comes next, where a key may start. -/
def saveCandidate (s : Scan) : Option Scan :=
  if s.allowsKey then do
    let candidate : KeyCandidate :=
      { isRequired := !s.inFlow && s.indent == (s.cursor.column : Int)
        position := s.tokens.size
        place := s.cursor }
    let s ← s.dropCandidate
    return { s with candidate := some candidate }
  else some s

/-- Whether a candidate is on an earlier line or too far back. -/
def isStale (s : Scan) (k : KeyCandidate) : Bool :=
  k.place.line < s.cursor.line || k.place.index + 1024 < s.cursor.index

/-- Gives up the candidates that have become stale. -/
def dropStale (s : Scan) : Option Scan :=
  let stale (k : Option KeyCandidate) : Bool := k.any s.isStale
  let fresh (k : Option KeyCandidate) : Option KeyCandidate := k.filter fun k => !s.isStale k
  if (s.candidate :: s.around).any fun k => stale k && k.any (·.isRequired) then none
  else some { s with candidate := fresh s.candidate, around := s.around.map fresh }

/-! ## Indentation -/

/-- Opens a block collection at a column that is deeper than the innermost one. Inside brackets
there is no indentation. -/
def openBlock (s : Scan) (column : Nat) (position : Nat) (t : Token) : Scan :=
  if !s.inFlow && s.indent < column then
    { s.insertAt position t with indent := column, outer := s.indent :: s.outer }
  else s

/-- Closes the block collections that are deeper than a column. -/
def closeBlocks (column : Int) : List Int → Scan → Scan
  | [], s => s
  | column' :: outer, s =>
    if column < s.indent then
      closeBlocks column outer { s.push .blockEnd with indent := column', outer }
    else s

/-- Closes the block collections that are deeper than a column, outside of brackets. -/
def unroll (s : Scan) (column : Int) : Scan :=
  if s.inFlow then s else closeBlocks column s.outer s

/-! ## Tokens -/

/-- The place of the next token, after blanks, comments and line ends. At the start of a line of a
block a tab is no blank, and a key may start there. A byte order mark at the start of a line is
passed over, but it takes a column. -/
def skipToToken : Nat → Scan → Scan
  | 0, s => s
  | fuel + 1, s =>
    let c := s.cursor
    let c := if c.column == 0 && c.rest.head? == some '\uFEFF' then c.skip 1 else c
    let c := c.skipWhile fun ch => ch == ' ' || ((s.inFlow || !s.allowsKey) && ch == '\t')
    let c := if c.rest.head? == some '#' then c.skipWhile fun _ => true else c
    if c.rest.head?.any isBreak then
      skipToToken fuel { s with cursor := c.takeBreak.2, allowsKey := s.allowsKey || !s.inFlow }
    else { s with cursor := c }

def marker (s : Scan) (t : Token) : Option Scan := do
  let s ← (s.unroll (-1)).dropCandidate
  return { s.pushIndicator 3 t with allowsKey := false }

/-- An opening bracket, which may start a key itself. -/
def openFlow (s : Scan) (t : Token) : Option Scan := do
  let s ← s.saveCandidate
  return { s.pushIndicator 1 t with
    candidate := none, around := s.candidate :: s.around, allowsKey := true }

/-- A closing bracket. -/
def closeFlow (s : Scan) (t : Token) : Option Scan := do
  let s ← s.dropCandidate
  let s := { s.pushIndicator 1 t with allowsKey := false }
  match s.around with
  | [] => return s
  | candidate :: around => return { s with candidate, around }

/-- A comma between brackets. -/
def flowEntry (s : Scan) : Option Scan := do
  let s ← s.dropCandidate
  return { s.pushIndicator 1 .flowEntry with allowsKey := true }

/-- The hyphen of a block entry. -/
def blockEntry (s : Scan) : Option Scan := do
  if !s.inFlow && !s.allowsKey then none
  else
    let s := s.openBlock s.cursor.column s.tokens.size .blockSequenceStart
    let s ← s.dropCandidate
    return { s.pushIndicator 1 .blockEntry with allowsKey := true }

/-- The question mark of a key. -/
def explicitKey (s : Scan) : Option Scan := do
  if !s.inFlow && !s.allowsKey then none
  else
    let s := s.openBlock s.cursor.column s.tokens.size .blockMappingStart
    let s ← s.dropCandidate
    return { s.pushIndicator 1 .key with allowsKey := !s.inFlow }

/-- The colon of a value: it turns the candidate into a key. -/
def value (s : Scan) : Option Scan :=
  match s.candidate with
  | some k =>
    let s := s.insertAt k.position .key
    let s := s.openBlock k.place.column k.position .blockMappingStart
    some { s.pushIndicator 1 .value with candidate := none, allowsKey := false }
  | none =>
    if !s.inFlow && !s.allowsKey then none
    else
      let s := s.openBlock s.cursor.column s.tokens.size .blockMappingStart
      some { s.pushIndicator 1 .value with allowsKey := !s.inFlow }

/-- A block scalar. -/
def block (s : Scan) (literal : Bool) : Option Scan := do
  let s ← s.dropCandidate
  let (text, cursor) ← blockScalar literal s.indent (s.cursor.skip 1)
  return { s.push (.scalar false text) with cursor, allowsKey := true }

/-- A quoted scalar. -/
def quoted (s : Scan) (single : Bool) : Option Scan := do
  let s ← s.saveCandidate
  let c := s.cursor.skip 1
  let (text, cursor) ← quotedPieces single (c.rest.length + 1) [] c
  return { s.push (.scalar false (String.ofList text)) with cursor, allowsKey := false }

/-- A plain scalar. A key may follow it where it ended with a line. -/
def plain (s : Scan) : Option Scan := do
  let s ← s.saveCandidate
  let c := s.cursor
  let (text, isBroken, cursor) ←
    plainWords s.inFlow (s.indent + 1).toNat (c.rest.length + 1) [] {} c
  return { s.push (.scalar true (String.ofList text)) with cursor, allowsKey := isBroken }

/-- Whether a plain scalar can start with these characters. -/
def startsPlain (inFlow : Bool) : List Char → Bool
  | [] => false
  | c :: rest =>
    if c == '-' then !(rest.head?.any isBlank)
    else if c == '?' || c == ':' then !inFlow && !endsWord rest
    else !(isBlank c || isBreak c || ",[]\x7b\x7d#&*!|>'\"%@\x60".toList.contains c)

/-- The next token, after blanks and indentation have been dealt with. -/
def next (s : Scan) : Option Scan :=
  let c := s.cursor
  if c.column == 0 && c.rest.head? == some '%' then none
  else if c.atMarker then
    s.marker (if c.rest.head? == some '-' then .documentStart else .documentEnd)
  else
    match c.rest with
    | '[' :: _ => s.openFlow .flowSequenceStart
    | '{' :: _ => s.openFlow .flowMappingStart
    | ']' :: _ => s.closeFlow .flowSequenceEnd
    | '}' :: _ => s.closeFlow .flowMappingEnd
    | ',' :: _ => s.flowEntry
    | '\'' :: _ => s.quoted true
    | '"' :: _ => s.quoted false
    | ch :: rest =>
      if ch == '-' && endsWord rest then s.blockEntry
      else if ch == '?' && (s.inFlow || endsWord rest) then s.explicitKey
      else if ch == ':' && (s.inFlow || endsWord rest) then s.value
      else if ch == '|' && !s.inFlow then s.block true
      else if ch == '>' && !s.inFlow then s.block false
      else if startsPlain s.inFlow c.rest then s.plain
      else none
    | [] => some s

/-- The tokens after those so far, for at most a number of steps. At the end of the text all block
collections are closed. -/
def run : Nat → Scan → Option (List Token)
  | 0, _ => none
  | fuel + 1, s => do
    let s ← (s.skipToToken (s.cursor.rest.length + 1)).dropStale
    let s := s.unroll s.cursor.column
    if s.cursor.rest.isEmpty then
      let s ← (s.unroll (-1)).dropCandidate
      return s.tokens.toList
    else
      let s ← s.next
      run fuel s

end Scan

/-- The tokens of a text; `none` where it is not YAML. -/
def Token.listOfText? (text : String) : Option (List Token) :=
  let cs := text.toList
  if cs.all isPrintable then Scan.run (cs.length + 1) { cursor := Cursor.start cs } else none

end EgressPolicy.Yaml
