import EgressPolicy.Text.Hex
import EgressPolicy.Yaml.Cursor

/-!
The scalars of a YAML text.

A plain scalar runs up to a colon or a comment, a quoted one up to its quote, and both may run over
several lines, which are folded: one line end becomes a space, and of several all but the first
stay. A block scalar takes the indented lines below its indicator, as they are or folded.
-/

namespace EgressPolicy.Yaml

/-! ## Gaps between words -/

/-- The blanks and line ends between two words of a scalar. -/
structure Gap where
  /-- The blanks, as long as no line has ended. -/
  blanks : List Char := []
  isBroken : Bool := false
  /-- The first line end. -/
  first : List Char := []
  /-- The other line ends. -/
  more : List Char := []

/-- What a gap counts as inside a scalar. -/
def Gap.folded (g : Gap) : List Char :=
  if g.isBroken then
    if g.first == ['\n'] then (if g.more.isEmpty then [' '] else g.more) else g.first ++ g.more
  else g.blanks

/-- Takes blanks and line ends, for at most a number of steps. Tabs may not stand for indentation
before column `indent`. -/
def takeGap (indent : Nat) : Nat → Gap → Cursor → Option (Gap × Cursor)
  | 0, g, c => some (g, c)
  | fuel + 1, g, c =>
    match c.rest with
    | [] => some (g, c)
    | ch :: _ =>
      if isBlank ch then
        if g.isBroken then
          if ch == '\t' && c.column < indent then none else takeGap indent fuel g (c.skip 1)
        else takeGap indent fuel { g with blanks := g.blanks ++ [ch] } (c.skip 1)
      else if isBreak ch then
        let (ended, c) := c.takeBreak
        takeGap indent fuel
          (if g.isBroken then { g with more := g.more ++ ended }
            else { blanks := [], isBroken := true, first := ended, more := [] })
          c
      else some (g, c)

/-! ## Plain scalars -/

/-- The length of the plain word at the front of a text. Inside brackets a colon may not be followed
by an indicator, and indicators end the word. -/
def plainWord? (inFlow : Bool) : List Char → Option Nat
  | [] => some 0
  | c :: rest =>
    if isBlank c || isBreak c then some 0
    else if inFlow && c == ':' && (rest.head?.any (",?[]\x7b\x7d".toList.contains ·)) then none
    else if c == ':' && endsWord rest then some 0
    else if inFlow && ",[]\x7b\x7d".toList.contains c then some 0
    else (plainWord? inFlow rest).map (· + 1)

/-- The words of a plain scalar after some text and a gap. The answer says whether a line ended at
the end of the scalar. Continuation lines are indented by at least `indent`. -/
def plainWords (inFlow : Bool) (indent : Nat) :
    Nat → List Char → Gap → Cursor → Option (List Char × Bool × Cursor)
  | 0, text, g, c => some (text, g.isBroken, c)
  | fuel + 1, text, g, c =>
    if c.atMarker || c.rest.head? == some '#' then some (text, g.isBroken, c)
    else do
      let length ← plainWord? inFlow c.rest
      if length = 0 then some (text, g.isBroken, c)
      else
        let text := text ++ g.folded ++ c.rest.take length
        let c := c.skip length
        if endsWord c.rest && !c.rest.isEmpty then
          let (g, c) ← takeGap indent c.rest.length {} c
          if !inFlow && c.column < indent then some (text, g.isBroken, c)
          else plainWords inFlow indent fuel text g c
        else some (text, false, c)

/-! ## Quoted scalars -/

def letterEscape? : Char → Option Char
  | '0' => some '\x00'
  | 'a' => some '\x07'
  | 'b' => some '\x08'
  | 't' => some '\t'
  | '\t' => some '\t'
  | 'n' => some '\n'
  | 'v' => some '\x0b'
  | 'f' => some '\x0c'
  | 'r' => some '\r'
  | 'e' => some '\x1b'
  | ' ' => some ' '
  | '"' => some '"'
  | '/' => some '/'
  | '\\' => some '\\'
  | 'N' => some '\x85'
  | '_' => some '\xa0'
  | 'L' => some '\u2028'
  | 'P' => some '\u2029'
  | _ => none

/-- How many hexadecimal digits follow the letter of an escape by number. -/
def numberEscape? : Char → Option Nat
  | 'x' => some 2
  | 'u' => some 4
  | 'U' => some 8
  | _ => none

/-- The number of a run of hexadecimal digits. -/
def hexNumber? (cs : List Char) : Option Nat :=
  cs.foldlM (fun acc c => (Text.Hex.value? c).map (16 * acc + ·)) 0

/-- The character with a number; surrogates have none. -/
def charOfNumber? (n : Nat) : Option Char :=
  if (0xD800 ≤ n ∧ n ≤ 0xDFFF) ∨ 0x10FFFF < n then none else some (Char.ofNat n)

/-- The escape after a backslash: its character and its length. -/
def escape? : List Char → Option (Char × Nat)
  | [] => none
  | c :: rest =>
    match letterEscape? c with
    | some ch => some (ch, 1)
    | none => do
      let count ← numberEscape? c
      if rest.length < count then none
      else
        let ch ← charOfNumber? (← hexNumber? (rest.take count))
        return (ch, count + 1)

/-- How a piece of a quoted scalar ends. -/
inductive PieceEnd where
  /-- At the closing quote. -/
  | quote
  /-- At a blank, a line end or the end of the text. -/
  | gap
  /-- At an escaped line end. -/
  | escapedBreak

/-- The characters of a quoted scalar up to a blank, a line end or the closing quote. -/
def quotedPiece (single : Bool) : Nat → List Char → Cursor → Option (List Char × PieceEnd × Cursor)
  | 0, _, _ => none
  | fuel + 1, text, c =>
    match c.rest with
    | [] => some (text, .gap, c)
    | ch :: rest =>
      if isBlank ch || isBreak ch then some (text, .gap, c)
      else if single then
        if ch == '\'' then
          if rest.head? == some '\'' then quotedPiece single fuel (text ++ ['\'']) (c.skip 2)
          else some (text, .quote, c.skip 1)
        else quotedPiece single fuel (text ++ [ch]) (c.skip 1)
      else if ch == '"' then some (text, .quote, c.skip 1)
      else if ch == '\\' then
        if rest.head?.any isBreak then some (text, .escapedBreak, (c.skip 1).takeBreak.2)
        else do
          let (ch, length) ← escape? rest
          quotedPiece single fuel (text ++ [ch]) (c.skip (length + 1))
      else quotedPiece single fuel (text ++ [ch]) (c.skip 1)

/-- The pieces of a quoted scalar after some text. A document marker or the end of the text inside
the quotes is refused. -/
def quotedPieces (single : Bool) : Nat → List Char → Cursor → Option (List Char × Cursor)
  | 0, _, _ => none
  | fuel + 1, text, c =>
    if c.atMarker || c.rest.isEmpty then none
    else do
      let (text, ending, c) ← quotedPiece single (c.rest.length + 1) text c
      match ending with
      | .quote => return (text, c)
      | .gap =>
        let (g, c) ← takeGap 0 c.rest.length {} c
        quotedPieces single fuel (text ++ g.folded) c
      | .escapedBreak =>
        let (g, c) ← takeGap 0 c.rest.length { isBroken := true } c
        quotedPieces single fuel (text ++ g.folded) c

/-! ## Block scalars -/

/-- What becomes of the line ends after the last line of a block scalar. -/
inductive Chomping where
  /-- All go. -/
  | strip
  /-- The first stays. -/
  | clip
  /-- All stay. -/
  | keep

/-- The chomping indicator at the front of a text. -/
def chomping? : List Char → Option Chomping
  | '-' :: _ => some .strip
  | '+' :: _ => some .keep
  | _ => none

/-- The indentation indicator at the front of a text; a zero is no indentation. -/
def indentation? : List Char → Option Nat
  | c :: _ => if c.isDigit then some (c.toNat - '0'.toNat) else none
  | [] => none

/-- The indicators of a block scalar in either order, and the place after them. -/
def blockHeader (c : Cursor) : Option (Chomping × Option Nat × Cursor) :=
  let header :=
    match chomping? c.rest with
    | some chomping =>
      let c := c.skip 1
      match indentation? c.rest with
      | some n => (chomping, some n, c.skip 1)
      | none => (chomping, none, c)
    | none =>
      match indentation? c.rest with
      | some n =>
        let c := c.skip 1
        match chomping? c.rest with
        | some chomping => (chomping, some n, c.skip 1)
        | none => (.clip, some n, c)
      | none => (.clip, none, c)
  if header.2.1 == some 0 then none else some header

/-- Takes the indentation and the empty lines before a line of a block scalar: the line ends, the
deepest column met, and the place of the line. A tab may not stand for indentation. -/
def blockBreaks (indent : Option Nat) :
    Nat → List Char → Nat → Cursor → Option (List Char × Nat × Cursor)
  | 0, ends, deepest, c => some (ends, deepest, c)
  | fuel + 1, ends, deepest, c =>
    let spaces := (c.rest.takeWhile (· == ' ')).length
    let c := c.skip (match indent with
      | none => spaces
      | some n => min spaces (n - c.column))
    let deepest := max deepest c.column
    let isShort := indent.all (c.column < ·)
    match c.rest with
    | [] => some (ends, deepest, c)
    | ch :: _ =>
      if isShort && ch == '\t' then none
      else if isBreak ch then
        let (ended, c) := c.takeBreak
        blockBreaks indent fuel (ends ++ ended) deepest c
      else some (ends, deepest, c)

/-- The lines of a block scalar after some text. `first` is the line end before this line, `more`
are the empty lines after it, and `wasBlank` says whether the line before started with a blank. The
answer is the text with the line ends that are left over. -/
def blockLines (literal : Bool) (indent : Nat) :
    Nat → List Char → List Char → List Char → Bool → Cursor →
      Option (List Char × List Char × List Char × Cursor)
  | 0, text, first, more, _, c => some (text, first, more, c)
  | fuel + 1, text, first, more, wasBlank, c =>
    if c.column == indent && !c.rest.isEmpty then do
      let startsBlank := c.rest.head?.any isBlank
      let joined :=
        if !literal && first == ['\n'] && !wasBlank && !startsBlank then
          if more.isEmpty then [' '] else []
        else first
      let line := c.rest.takeWhile fun ch => !isBreak ch
      let (first, c) := (c.skip line.length).takeBreak
      let text := text ++ joined ++ more ++ line
      let (more, _, c) ← blockBreaks (some indent) (c.rest.length + 1) [] 0 c
      blockLines literal indent fuel text first more startsBlank c
    else some (text, first, more, c)

/-- A block scalar after its indicator, in a block of an indentation. -/
def blockScalar (literal : Bool) (parent : Int) (c : Cursor) : Option (String × Cursor) := do
  let (chomping, increment, c) ← blockHeader c
  let c := c.skipWhile isBlank
  let c := if c.rest.head? == some '#' then c.skipWhile fun _ => true else c
  if c.rest.head?.any (fun ch => !isBreak ch) then none
  else
    let (_, c) := c.takeBreak
    let fuel := c.rest.length + 1
    let indent := increment.map fun n => parent.toNat + n
    let (more, deepest, c) ← blockBreaks indent fuel [] 0 c
    let indent := indent.getD (max deepest (max (parent + 1).toNat 1))
    let (text, first, more, c) ← blockLines literal indent fuel [] [] more false c
    let ending :=
      match chomping with
      | .strip => []
      | .clip => first
      | .keep => first ++ more
    return (String.ofList (text ++ ending), c)

end EgressPolicy.Yaml
