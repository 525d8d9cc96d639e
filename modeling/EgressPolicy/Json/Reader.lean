import EgressPolicy.Json.Tree
import EgressPolicy.Text.Hex

/-!
Reading JSON texts.

`Page.ofText` gives every text a tree. The grammar is the strict one: blanks are the space, the tab
and the two line ends, nothing may follow the value, and a string holds no raw control character.
A text that leaves the grammar gets a tree with a broken leaf at that place.
-/

namespace EgressPolicy.Json

/-- Whether a character may stand between two tokens. -/
def isSpace (c : Char) : Bool :=
  c == ' ' || c == '\t' || c == '\n' || c == '\r'

/-- The characters from the first token on. -/
def skipSpace (cs : List Char) : List Char :=
  cs.dropWhile isSpace

/-! ## Strings -/

/-- The code unit of four hexadecimal digits. -/
def codeUnit? (a b c d : Char) : Option Nat := do
  let a ← Text.Hex.value? a
  let b ← Text.Hex.value? b
  let c ← Text.Hex.value? c
  let d ← Text.Hex.value? d
  return 4096 * a + 256 * b + 16 * c + d

/-- The character that a letter stands for after a backslash. -/
def unescape? : Char → Option Char
  | '"' => some '"'
  | '\\' => some '\\'
  | '/' => some '/'
  | 'b' => some '\x08'
  | 'f' => some '\x0c'
  | 'n' => some '\n'
  | 'r' => some '\r'
  | 't' => some '\t'
  | _ => none

/-- What a piece of a string stands for: a character, or half of a surrogate pair. -/
inductive Unit16 where
  | char (c : Char)
  | lead (unit : Nat)
  | trail (unit : Nat)

def Unit16.ofNat (unit : Nat) : Unit16 :=
  if 0xD800 ≤ unit ∧ unit < 0xDC00 then .lead unit
  else if 0xDC00 ≤ unit ∧ unit < 0xE000 then .trail unit
  else .char (Char.ofNat unit)

/-- The pieces of a string up to its closing quote, and what follows the quote; `none` where the
string leaves the grammar. -/
def stringUnits? : List Char → Option (List Unit16 × List Char)
  | [] => none
  | '"' :: rest => some ([], rest)
  | '\\' :: 'u' :: a :: b :: c :: d :: rest =>
    match codeUnit? a b c d, stringUnits? rest with
    | some unit, some (units, rest) => some (Unit16.ofNat unit :: units, rest)
    | _, _ => none
  | '\\' :: c :: rest =>
    match unescape? c, stringUnits? rest with
    | some c, some (units, rest) => some (.char c :: units, rest)
    | _, _ => none
  | c :: rest =>
    if c = '\\' ∨ c.toNat < 0x20 then none
    else
      match stringUnits? rest with
      | some (units, rest) => some (.char c :: units, rest)
      | none => none

/-- The characters of the pieces; `none` where half of a surrogate pair stands alone. -/
def unitChars? : List Unit16 → Option (List Char)
  | [] => some []
  | .char c :: rest => (unitChars? rest).map (c :: ·)
  | .lead high :: .trail low :: rest =>
    (unitChars? rest).map
      (Char.ofNat (0x10000 + (high - 0xD800) * 0x400 + (low - 0xDC00)) :: ·)
  | .lead _ :: _ => none
  | .trail _ :: _ => none

/-- A string after its opening quote: its text if that is Unicode, and what follows the string. -/
def string? (cs : List Char) : Option (Option String × List Char) :=
  (stringUnits? cs).map fun (units, rest) => ((unitChars? units).map String.ofList, rest)

/-! ## Values -/

/-- The text after a word that has to stand at its front. -/
def word? : List Char → List Char → Option (List Char)
  | [], cs => some cs
  | w :: ws, c :: cs => if w = c then word? ws cs else none
  | _ :: _, [] => none

/-- A tree and what follows it; nothing follows a text that broke inside the tree. -/
abbrev Reading (α : Type) := α × Option (List Char)

/-- A tree of one token. -/
def leaf (tree : Tree) : Option (List Char) → Reading Tree
  | some rest => (tree, some rest)
  | none => (.broken, none)

mutual

/-- The value at the front of a text. The number bounds the depth of the calls. -/
def readValue : Nat → List Char → Reading Tree
  | 0, _ => (.broken, none)
  | fuel + 1, cs =>
    match skipSpace cs with
    | [] => (.broken, none)
    | 'n' :: rest => leaf .null (word? ['u', 'l', 'l'] rest)
    | 't' :: rest => leaf (.bool true) (word? ['r', 'u', 'e'] rest)
    | 'f' :: rest => leaf (.bool false) (word? ['a', 'l', 's', 'e'] rest)
    | '"' :: rest =>
      match string? rest with
      | some (s, rest) => (.string s, some rest)
      | none => (.broken, none)
    | '[' :: rest =>
      match skipSpace rest with
      | ']' :: rest => (.array [], some rest)
      | rest =>
        let (items, rest) := readItems fuel rest
        (.array items, rest)
    | '{' :: rest =>
      match skipSpace rest with
      | '}' :: rest => (.object [], some rest)
      | rest =>
        let (members, rest) := readMembers fuel rest
        (.object members, rest)
    | c :: rest =>
      match Numeral.ofChars? (c :: rest) with
      | some (n, rest) => (.number n.value?, some rest)
      | none => (.broken, none)

/-- The items of an array from an item on, up to the closing bracket. -/
def readItems : Nat → List Char → Reading (List Tree)
  | 0, _ => ([.broken], none)
  | fuel + 1, cs =>
    let (item, rest) := readValue fuel cs
    match rest.map skipSpace with
    | some (',' :: rest) =>
      let (items, rest) := readItems fuel rest
      (item :: items, rest)
    | some (']' :: rest) => ([item], some rest)
    | some _ => ([item, .broken], none)
    | none => ([item], none)

/-- The members of an object from a key on, up to the closing brace. -/
def readMembers : Nat → List Char → Reading (List (Option String × Tree))
  | 0, _ => ([(none, .broken)], none)
  | fuel + 1, cs =>
    match skipSpace cs with
    | '"' :: rest =>
      match string? rest with
      | none => ([(none, .broken)], none)
      | some (key, rest) =>
        match skipSpace rest with
        | ':' :: rest =>
          let (value, rest) := readValue fuel rest
          match rest.map skipSpace with
          | some (',' :: rest) =>
            let (members, rest) := readMembers fuel rest
            ((key, value) :: members, rest)
          | some ('}' :: rest) => ([(key, value)], some rest)
          | some _ => ([(key, value), (none, .broken)], none)
          | none => ([(key, value)], none)
        | _ => ([(key, .broken)], none)
    | _ => ([(none, .broken)], none)

end

/-- A whole text: its tree, and whether only blanks follow it. -/
structure Page where
  tree : Tree
  isComplete : Bool
  deriving Inhabited

/-- Reads a text. Every call takes a character or is the first one after a call that did, so a bound
of twice the length is never reached. -/
def Page.ofText (s : String) : Page :=
  let cs := s.toList
  let (tree, rest) := readValue (2 * cs.length + 2) cs
  { tree, isComplete := rest.any fun rest => (skipSpace rest).isEmpty }

end EgressPolicy.Json
