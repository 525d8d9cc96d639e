/-!
Positions in a YAML text.

A cursor is the rest of the text and where it starts. Lines end with a line feed, a carriage return,
both, a next-line character, or a line or paragraph separator; inside a scalar all but the two
separators count as a line feed.
-/

namespace EgressPolicy.Yaml

/-- A place in a text. -/
structure Cursor where
  /-- The text from here on. -/
  rest : List Char
  /-- How many bytes of UTF-8 stand before. -/
  index : Nat
  /-- How many lines stand before. -/
  line : Nat
  /-- How many characters of the line stand before. -/
  column : Nat

def isBreak (c : Char) : Bool :=
  c == '\n' || c == '\r' || c == '\x85' || c == '\u2028' || c == '\u2029'

/-- Whether a character is a space or a tab. -/
def isBlank (c : Char) : Bool :=
  c == ' ' || c == '\t'

/-- Whether a word ends before these characters: at a blank, a line end or the end of the text. -/
def endsWord : List Char → Bool
  | [] => true
  | c :: _ => isBlank c || isBreak c

/-- Whether a character may stand in a YAML text at all. -/
def isPrintable (c : Char) : Bool :=
  let n := c.toNat
  n == 0x09 || n == 0x0A || n == 0x0D || n == 0x85 || (0x20 ≤ n && n ≤ 0x7E) ||
    (0xA0 ≤ n && n ≤ 0xFFFD) || 0x10000 ≤ n

/-- How many bytes of UTF-8 some characters take. -/
def byteLength (cs : List Char) : Nat :=
  cs.foldl (fun count c => count + c.utf8Size) 0

namespace Cursor

def start (cs : List Char) : Cursor :=
  ⟨cs, 0, 0, 0⟩

/-- The place after the next characters, none of which ends a line. -/
def skip (c : Cursor) (count : Nat) : Cursor :=
  ⟨c.rest.drop count, c.index + byteLength (c.rest.take count), c.line, c.column + count⟩

/-- The place after a run of characters that do not end a line. -/
def skipWhile (p : Char → Bool) (c : Cursor) : Cursor :=
  c.skip (c.rest.takeWhile fun ch => p ch && !isBreak ch).length

/-- The place after a line end, and what the line end counts as; nothing happens elsewhere. -/
def takeBreak (c : Cursor) : List Char × Cursor :=
  match c.rest with
  | '\r' :: '\n' :: rest => (['\n'], ⟨rest, c.index + 2, c.line + 1, 0⟩)
  | ch :: rest =>
    if isBreak ch then
      (if ch == '\u2028' || ch == '\u2029' then [ch] else ['\n'],
        ⟨rest, c.index + ch.utf8Size, c.line + 1, 0⟩)
    else ([], c)
  | [] => ([], c)

/-- Whether a line with a document marker, three hyphens or three points, starts here. -/
def atMarker (c : Cursor) : Bool :=
  c.column == 0 &&
    match c.rest with
    | '-' :: '-' :: '-' :: rest => endsWord rest
    | '.' :: '.' :: '.' :: rest => endsWord rest
    | _ => false

end Cursor

end EgressPolicy.Yaml
