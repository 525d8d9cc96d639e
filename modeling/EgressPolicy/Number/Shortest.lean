import EgressPolicy.Number.Binary64
import EgressPolicy.Text.Decimal

/-!
The fewest decimal digits that read back as a given binary64 number.

A decimal reads back as a number when it lies in the interval of reals that round to the number.
`shortest` looks at the decimals of one digit, of two digits and so on, and takes the first length
at which one of the number's two neighbours on that decimal grid lies in the interval; of two hits
the nearer one, and of two equally near the one with an even last digit.
-/

namespace EgressPolicy

/-- The decimal fraction `0.d₁d₂…dₙ * 10 ^ point`. -/
structure DecimalFraction where
  /-- The digits, without trailing zeros; a single zero stands for zero. -/
  digits : List Char
  /-- The position of the decimal point, counted from before the first digit. -/
  point : Int
  deriving DecidableEq, Repr

namespace Binary64

/-- The position of the decimal point before which the first digit of `num / den` stands: the
quotient is at least `10 ^ (p - 1)` and less than `10 ^ p`. -/
def decimalPoint (num den : Nat) : Int :=
  if den ≤ num then ((Text.Decimal.digits (num / den)).length : Int)
  else 1 - ((Text.Decimal.digits ((den - 1) / num)).length : Int)

/-- The reals that round to a number, as multiples of `1 / den`: the number itself and the two ends,
which belong to the interval when `closed` is set. -/
structure Rounding where
  value : Nat
  low : Nat
  high : Nat
  den : Nat
  closed : Bool

/-- The interval of a number's magnitude. Below a power of two the neighbours are twice as near. -/
def rounding (x : Binary64) : Rounding :=
  let m := x.significand
  let below := if m = Nat.pow 2 52 ∧ leastExponent < x.exponent then 1 else 2
  let unit := x.exponent - 2
  let up := Nat.pow 2 unit.toNat
  { value := 4 * m * up
    low := (4 * m - below) * up
    high := (4 * m + 2) * up
    den := Nat.pow 2 (-unit).toNat
    closed := m % 2 == 0 }

/-- The best decimal of at most `places` digits in the interval: a whole number of units of
`10 ^ (point - places)`, if a neighbour of the number is in the interval. -/
def Rounding.candidate (r : Rounding) (point : Int) (places : Nat) : Option (Nat × Int) :=
  let unit := point - places
  let up := Nat.pow 10 unit.toNat * r.den
  let down := Nat.pow 10 (-unit).toNat
  let inside (c : Nat) : Bool :=
    if r.closed then decide (r.low * down ≤ c * up) && decide (c * up ≤ r.high * down)
    else decide (r.low * down < c * up) && decide (c * up < r.high * down)
  let lower := r.value * down / up
  let upper := lower + 1
  let toLower := r.value * down - lower * up
  let toUpper := upper * up - r.value * down
  match inside lower, inside upper with
  | true, true =>
    if toLower < toUpper ∨ (toLower = toUpper ∧ lower % 2 = 0) then some (lower, unit)
    else some (upper, unit)
  | true, false => some (lower, unit)
  | false, true => some (upper, unit)
  | false, false => none

/-- The decimal of a whole number of units of `10 ^ unit`. -/
def decimalOf (c : Nat) (unit : Int) : DecimalFraction :=
  let all := Text.Decimal.digits c
  let kept := (all.reverse.dropWhile (· == '0')).reverse
  ⟨kept, unit + all.length⟩

/-- The shortest decimal that reads back as the magnitude of the number. Seventeen digits always
suffice. -/
def shortest (x : Binary64) : DecimalFraction :=
  if x.isZero then ⟨['0'], 1⟩
  else
    let r := x.rounding
    let point := decimalPoint r.value r.den
    match (List.range' 1 17).findSome? (r.candidate point) with
    | some (c, unit) => decimalOf c unit
    | none => ⟨['0'], 1⟩

end Binary64

end EgressPolicy
