/-!
Hexadecimal digits, written small and read in either case.
-/

namespace EgressPolicy.Text.Hex

/-- The small digit of a number below sixteen. -/
def digit (n : Nat) : Char :=
  if n < 10 then Char.ofNat ('0'.toNat + n) else Char.ofNat ('a'.toNat + (n - 10))

def value? (c : Char) : Option Nat :=
  if '0' ≤ c ∧ c ≤ '9' then some (c.toNat - '0'.toNat)
  else if 'a' ≤ c ∧ c ≤ 'f' then some (c.toNat - 'a'.toNat + 10)
  else if 'A' ≤ c ∧ c ≤ 'F' then some (c.toNat - 'A'.toNat + 10)
  else none

/-- Reading the digit of a number gives the number. -/
theorem value?_digit : ∀ n < 16, value? (digit n) = some n := by decide

end EgressPolicy.Text.Hex
