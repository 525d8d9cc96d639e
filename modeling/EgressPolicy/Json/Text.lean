import EgressPolicy.Json.Value
import EgressPolicy.Text.Hex

/-!
The compact text of a JSON value.

No blanks are written and members come in the order in which the value lists them. Inside a string
the quote, the backslash and the control characters are escaped, the control characters by a letter
where there is one and otherwise by four small hexadecimal digits; every other character stands for
itself.
-/

namespace EgressPolicy.Json

/-- The escape of a code unit below `2 ^ 16` by its four hexadecimal digits. -/
def unicodeEscape (unit : Nat) : List Char :=
  ['\\', 'u', Text.Hex.digit (unit / 4096 % 16), Text.Hex.digit (unit / 256 % 16),
    Text.Hex.digit (unit / 16 % 16), Text.Hex.digit (unit % 16)]

/-- A character as it is written inside a string. -/
def escape (c : Char) : List Char :=
  if c = '"' then ['\\', '"']
  else if c = '\\' then ['\\', '\\']
  else if c = '\x08' then ['\\', 'b']
  else if c = '\x0c' then ['\\', 'f']
  else if c = '\n' then ['\\', 'n']
  else if c = '\r' then ['\\', 'r']
  else if c = '\t' then ['\\', 't']
  else if c.toNat < 0x20 then unicodeEscape c.toNat
  else [c]

/-- A string between its quotes. -/
def quoted (s : String) : List Char :=
  '"' :: (s.toList.flatMap escape ++ ['"'])

mutual

def chars : Json → List Char
  | null => ['n', 'u', 'l', 'l']
  | bool true => ['t', 'r', 'u', 'e']
  | bool false => ['f', 'a', 'l', 's', 'e']
  | number n => n.numeral.chars
  | string s => quoted s
  | array items => '[' :: (itemChars items ++ [']'])
  | object members => '{' :: (memberChars members ++ ['}'])

/-- The characters of the items of an array, with a comma between two of them. -/
def itemChars : List Json → List Char
  | [] => []
  | [v] => v.chars
  | v :: w :: rest => v.chars ++ ',' :: itemChars (w :: rest)

/-- The characters of the members of an object, with a comma between two of them. -/
def memberChars : List (String × Json) → List Char
  | [] => []
  | [(k, v)] => quoted k ++ ':' :: v.chars
  | (k, v) :: m :: rest => quoted k ++ ':' :: (v.chars ++ ',' :: memberChars (m :: rest))

end

def text (v : Json) : String :=
  String.ofList v.chars

end EgressPolicy.Json
