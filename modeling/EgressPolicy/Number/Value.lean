import EgressPolicy.Number.Numeral
import EgressPolicy.Number.Shortest

/-!
What a numeral means, and how a number is written.

An integer that fits into sixty-four bits, with a sign or without, stays an integer; every other
numeral is a binary64 number. Reading is the fast rule of many readers, which is not always the
nearest number: digits are gathered into a significand below `2 ^ 64`, later digits only move the
decimal point, and the significand is then scaled by a rounded power of ten.

Writing uses the fewest digits that read back, and `Layout` says where the point goes.
-/

namespace EgressPolicy

inductive Number where
  /-- An integer from `-2 ^ 63` to `2 ^ 64 - 1`. -/
  | integer (n : Int)
  /-- Any other number. -/
  | float (x : Binary64)
  deriving DecidableEq, Repr

/-! ## Reading -/

namespace Numeral

def digitValue (c : Char) : Nat :=
  c.toNat - '0'.toNat

/-- Appends digits to a significand while it stays below `2 ^ 64`; the digits not taken are left. -/
def gather (significand : Nat) : List Char → Nat × List Char
  | [] => (significand, [])
  | d :: ds =>
    let next := 10 * significand + digitValue d
    if next < Nat.pow 2 64 then gather next ds else (significand, d :: ds)

/-- The largest power of ten that is a finite number. -/
def greatestPower : Nat := 308

/-- Divides by the largest power of ten a number of times, or until nothing is left. -/
def descend : Nat → Binary64 → Option Binary64
  | 0, x => some x
  | times + 1, x =>
    if x.isZero then some x
    else do
      let y ← x.div? (← Binary64.powerOfTen? greatestPower)
      descend times y

/-- A significand times a power of ten; `none` where that is not finite. -/
def scale (significand : Nat) (power : Int) : Option Binary64 := do
  let x ← Binary64.ofRatio? false significand 1
  if 0 ≤ power then
    if power ≤ greatestPower then x.mul? (← Binary64.powerOfTen? power.toNat)
    else if x.isZero then some x else none
  else
    let size := (-power).toNat
    let times := (size - 1) / greatestPower
    let y ← descend times x
    y.div? (← Binary64.powerOfTen? (size - greatestPower * times))

/-- The greatest exponent that is read as a number. -/
def greatestExponent : Nat := Nat.pow 2 31 - 1

/-- The number whose magnitude is a significand times a power of ten, after a written exponent. An
exponent beyond all bounds makes a zero of it or has no number. -/
def float? (negative : Bool) (significand : Nat) (power : Int)
    (exponent : Option (Bool × List Char)) : Option Binary64 := do
  let magnitude ←
    match exponent with
    | none => scale significand power
    | some (down, run) =>
      let size := Nat.ofDigitChars 10 run 0
      if size ≤ greatestExponent then
        scale significand (if down then power - size else power + size)
      else if significand = 0 ∨ down = true then some (Binary64.zero false)
      else none
  return { magnitude with negative := negative }

/-- The number of an integer significand that fits into sixty-four bits. Minus zero and what is
below `-2 ^ 63` are not integers. -/
def integer? (negative : Bool) (significand : Nat) : Option Number :=
  if negative then
    if significand = 0 ∨ Nat.pow 2 63 < significand then
      (float? true significand 0 none).map .float
    else some (.integer (-significand))
  else some (.integer significand)

/-- The number that a numeral denotes; `none` where it is beyond the finite numbers. -/
def value? (n : Numeral) : Option Number :=
  let (whole, left) := gather 0 n.whole
  if left.isEmpty ∧ n.fraction = none ∧ n.exponent = none then integer? n.negative whole
  else
    let digits := n.fraction.getD []
    let (significand, dropped) := gather whole digits
    let taken := digits.length - dropped.length
    (float? n.negative significand (left.length - taken) n.exponent).map .float

end Numeral

/-! ## Writing -/

/-- Where the point of a decimal goes. -/
structure Layout where
  /-- The least power of ten of a first digit that is written positionally. -/
  positionalFrom : Int
  /-- The least power of ten of a first digit above those. -/
  positionalBelow : Int

/-- The numeral of a decimal. Positional numerals have a digit on both sides of the point; in the
others one digit stands before the point and the point goes where nothing follows it. -/
def Layout.numeral (layout : Layout) (negative : Bool) (d : DecimalFraction) : Numeral :=
  let lead := d.point - 1
  if layout.positionalFrom ≤ lead ∧ lead < layout.positionalBelow then
    if d.point ≤ 0 then
      ⟨negative, ['0'], some (List.replicate (-d.point).toNat '0' ++ d.digits), none⟩
    else
      let places := d.point.toNat
      if d.digits.length ≤ places then
        ⟨negative, d.digits ++ List.replicate (places - d.digits.length) '0', some ['0'], none⟩
      else ⟨negative, d.digits.take places, some (d.digits.drop places), none⟩
  else
    let rest := d.digits.drop 1
    ⟨negative, d.digits.take 1, if rest.isEmpty then none else some rest,
      some (decide (lead < 0), Text.Decimal.digits lead.natAbs)⟩

namespace Number

/-- Numbers are positional from a hundred-thousandth up to below ten to the sixteenth. -/
def layout : Layout := ⟨-5, 16⟩

def numeral : Number → Numeral
  | integer n => Numeral.ofInt n
  | float x => layout.numeral x.negative x.shortest

def text (n : Number) : String :=
  String.ofList n.numeral.chars

/-! Numerals read and written again. -/

example : ((Numeral.ofChars? "-0".toList).bind (·.1.value?)).map text = some "-0.0" := by
  decide +kernel
example : ((Numeral.ofChars? "1e16".toList).bind (·.1.value?)).map text = some "1e+16" := by
  decide +kernel
example : ((Numeral.ofChars? "0.0000025".toList).bind (·.1.value?)).map text = some "2.5e-6" := by
  decide +kernel

end Number

end EgressPolicy
