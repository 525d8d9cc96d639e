/-!
Decimal numerals.

`digits` writes a natural number without leading zeros and `value?` reads a run of digits, with any
number of leading zeros. `value?_digits` says that reading undoes writing.
-/

namespace EgressPolicy.Text.Decimal

/-- The decimal digits of a number, most significant first, without leading zeros. -/
def digits (n : Nat) : List Char :=
  Nat.toDigits 10 n

def text (n : Nat) : String :=
  String.ofList (digits n)

/-- The number that a run of ASCII digits denotes; an empty run denotes none. -/
def value? (cs : List Char) : Option Nat :=
  if cs ≠ [] ∧ cs.all Char.isDigit = true then some (Nat.ofDigitChars 10 cs 0) else none

theorem digits_ne_nil (n : Nat) : digits n ≠ [] :=
  Nat.toDigits_ne_nil

theorem isDigit_of_mem_digits {n : Nat} {c : Char} (h : c ∈ digits n) : c.isDigit = true :=
  Nat.isDigit_of_mem_toDigits (by decide) (by decide) h

/-- Reading the digits of a number gives the number. -/
theorem value?_digits (n : Nat) : value? (digits n) = some n := by
  have digitsOnly : (digits n).all Char.isDigit = true :=
    List.all_eq_true.mpr fun _ h => isDigit_of_mem_digits h
  rw [value?, if_pos ⟨digits_ne_nil n, digitsOnly⟩]
  exact congrArg some Nat.ofDigitChars_ten_toDigits

end EgressPolicy.Text.Decimal
