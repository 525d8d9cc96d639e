/-!
Finite binary64 numbers, held exactly.

A number is a sign, a significand and a power of two, so every operation is one on `Nat` and `Int`:
the exact result is formed as a quotient and rounded once, to the nearest number and to the even one
of two equally near. What would leave the finite range is `none`.
-/

namespace EgressPolicy

/-- The number `± significand * 2 ^ exponent`. Numbers made here are canonical: the significand is
below `2 ^ 53`, the exponent at least `-1074`, and the significand reaches `2 ^ 52` unless the
exponent is `-1074`. -/
structure Binary64 where
  /-- Whether the number has a minus sign; zero may have one too. -/
  negative : Bool
  /-- The binary digits as a whole number. -/
  significand : Nat
  /-- The power of two that they are scaled by. -/
  exponent : Int
  deriving DecidableEq, Repr

namespace Binary64

/-- The exponent of the numbers nearest to zero. -/
def leastExponent : Int := -1074

/-- The exponent of the largest numbers. -/
def greatestExponent : Int := 971

def zero (negative : Bool) : Binary64 :=
  ⟨negative, 0, leastExponent⟩

def isZero (x : Binary64) : Bool :=
  x.significand == 0

/-- The whole number nearest to `num / den`, the even one of two equally near. -/
def roundHalfEven (num den : Nat) : Nat :=
  let floor := num / den
  let twice := 2 * (num % den)
  if den < twice ∨ (den = twice ∧ floor % 2 = 1) then floor + 1 else floor

/-- `num / den` in units of `2 ^ unit`, as a quotient of two whole numbers. -/
def inUnits (num den : Nat) (unit : Int) : Nat × Nat :=
  if 0 ≤ unit then (num, den * Nat.pow 2 unit.toNat)
  else (num * Nat.pow 2 (-unit).toNat, den)

/-- The exponent for which `num / den` has a significand of fifty-three bits, or the least one. -/
def exponentOf (num den : Nat) : Int :=
  let estimate : Int := (num.log2 : Int) - (den.log2 : Int) - 52
  let scaled := inUnits num den estimate
  let exact := if scaled.1 < Nat.pow 2 52 * scaled.2 then estimate - 1 else estimate
  max exact leastExponent

/-- The number nearest to `num / den`; `none` where that is beyond the finite numbers. -/
def ofRatio? (negative : Bool) (num den : Nat) : Option Binary64 :=
  if num = 0 then some (zero negative)
  else
    let unit := exponentOf num den
    let scaled := inUnits num den unit
    let rounded := roundHalfEven scaled.1 scaled.2
    let x : Binary64 :=
      if rounded = Nat.pow 2 53 then ⟨negative, Nat.pow 2 52, unit + 1⟩
      else ⟨negative, rounded, unit⟩
    if x.exponent ≤ greatestExponent then some x else none

/-- The number nearest to `num / den * 2 ^ scale`. -/
def ofScaledRatio? (negative : Bool) (num den : Nat) (scale : Int) : Option Binary64 :=
  if 0 ≤ scale then ofRatio? negative (num * Nat.pow 2 scale.toNat) den
  else ofRatio? negative num (den * Nat.pow 2 (-scale).toNat)

def mul? (x y : Binary64) : Option Binary64 :=
  ofScaledRatio? (x.negative != y.negative) (x.significand * y.significand) 1
    (x.exponent + y.exponent)

/-- The rounded quotient; there is none by zero. -/
def div? (x y : Binary64) : Option Binary64 :=
  if y.isZero then none
  else ofScaledRatio? (x.negative != y.negative) x.significand y.significand
    (x.exponent - y.exponent)

def powerOfTen? (k : Nat) : Option Binary64 :=
  ofRatio? false (Nat.pow 10 k) 1

example : ofRatio? false 1 10 = some ⟨false, 7205759403792794, -56⟩ := by decide +kernel
example : ofRatio? false (Nat.pow 10 309) 1 = none := by decide +kernel

end Binary64

end EgressPolicy
