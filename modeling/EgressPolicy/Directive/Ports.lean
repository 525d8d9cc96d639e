import EgressPolicy.Text.Blank
import EgressPolicy.Text.Decimal

/-!
Port lists.

The items of a port list are the pieces between commas, trimmed, without the blank ones. An item is
a port or two ports with a hyphen between them, the first not above the second. A port is a number
from 1 to 65535 in decimal digits, with leading zeros or a plus sign if one likes and with blanks
around it. Items keep the spelling that they have.
-/

namespace EgressPolicy.Ports

def port? (cs : List Char) : Option Nat :=
  let digits :=
    match Text.strip cs with
    | '+' :: rest => rest
    | other => other
  (Text.Decimal.value? digits).filter fun n => decide (1 ≤ n) && decide (n ≤ 65535)

/-- The two sides of the first hyphen. -/
def splitRange? (cs : List Char) : Option (List Char × List Char) :=
  match cs.span (· != '-') with
  | (low, _ :: high) => some (low, high)
  | (_, []) => none

/-- Whether an item is a port or a range of ports. -/
def isValid (item : List Char) : Bool :=
  match splitRange? item with
  | some (low, high) =>
    match port? low, port? high with
    | some low, some high => decide (low ≤ high)
    | _, _ => false
  | none => (port? item).isSome

/-- The items of a list of patterns, each of which may hold several. -/
def items (patterns : List String) : List (List Char) :=
  ((patterns.flatMap fun p => p.toList.splitOn ',').map Text.strip).filter (· ≠ [])

def text (items : List (List Char)) : String :=
  String.ofList ([','].intercalate items)

end EgressPolicy.Ports
