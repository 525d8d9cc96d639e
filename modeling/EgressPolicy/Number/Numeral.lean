import EgressPolicy.Text.Decimal

/-!
Decimal numerals as JSON writes them.

A numeral is a sign, whole digits, perhaps a fraction and perhaps an exponent. `Numeral.chars`
writes one and `Numeral.ofChars?` reads the longest one at the front of a text.
-/

namespace EgressPolicy

/-- A written number. The digit runs are not empty, and the whole digits start with a zero only
where they are a single zero. -/
structure Numeral where
  /-- Whether a minus sign stands in front. -/
  negative : Bool
  /-- The digits before the point. -/
  whole : List Char
  /-- The digits after the point, if there is a point. -/
  fraction : Option (List Char)
  /-- The digits of the exponent and whether it has a minus sign, if there is an exponent. -/
  exponent : Option (Bool × List Char)
  deriving DecidableEq, Repr

namespace Numeral

def ofInt (n : Int) : Numeral :=
  ⟨decide (n < 0), Text.Decimal.digits n.natAbs, none, none⟩

/-- The characters of a fraction, with its point. -/
def fractionChars : Option (List Char) → List Char
  | none => []
  | some digits => '.' :: digits

/-- The characters of an exponent: a small `e`, a sign always, and the digits. -/
def exponentChars : Option (Bool × List Char) → List Char
  | none => []
  | some (negative, digits) => 'e' :: (if negative then '-' else '+') :: digits

def chars (n : Numeral) : List Char :=
  (if n.negative then ['-'] else []) ++ n.whole ++ fractionChars n.fraction
    ++ exponentChars n.exponent

/-- The run of digits at the front of a text and what follows it; an empty run is none. -/
def digits? (cs : List Char) : Option (List Char × List Char) :=
  let run := cs.takeWhile Char.isDigit
  if run.isEmpty then none else some (run, cs.dropWhile Char.isDigit)

/-- The whole digits: a single zero, or digits that do not start with one. -/
def whole? (cs : List Char) : Option (List Char × List Char) :=
  match digits? cs with
  | some ('0' :: _ :: _, _) => none
  | other => other

/-- A fraction where a point stands; digits have to follow the point. -/
def fraction? : List Char → Option (Option (List Char) × List Char)
  | '.' :: rest => (digits? rest).map fun (run, rest) => (some run, rest)
  | cs => some (none, cs)

/-- An exponent after its letter: perhaps a sign, and digits. -/
def exponentBody? : List Char → Option (Option (Bool × List Char) × List Char)
  | '+' :: rest => (digits? rest).map fun (run, rest) => (some (false, run), rest)
  | '-' :: rest => (digits? rest).map fun (run, rest) => (some (true, run), rest)
  | cs => (digits? cs).map fun (run, rest) => (some (false, run), rest)

/-- An exponent where its letter stands, small or capital. -/
def exponent? : List Char → Option (Option (Bool × List Char) × List Char)
  | 'e' :: rest => exponentBody? rest
  | 'E' :: rest => exponentBody? rest
  | cs => some (none, cs)

def unsigned? (negative : Bool) (cs : List Char) : Option (Numeral × List Char) := do
  let (whole, rest) ← whole? cs
  let (fraction, rest) ← fraction? rest
  let (exponent, rest) ← exponent? rest
  return (⟨negative, whole, fraction, exponent⟩, rest)

/-- The numeral at the front of a text and what follows it. -/
def ofChars? : List Char → Option (Numeral × List Char)
  | '-' :: rest => unsigned? true rest
  | cs => unsigned? false cs

example : ofChars? "-1.50e+3,".toList =
    some (⟨true, ['1'], some ['5', '0'], some (false, ['3'])⟩, [',']) := by decide
example : ofChars? "01".toList = none := by decide

end Numeral

end EgressPolicy
