/-!
# Decimal numerals

The numerals of options and settings: digits, and perhaps a plus sign before them.
-/

namespace WireParity.Numeral

/-- The digits of a numeral, without its plus sign. -/
def digitsOf (text : String) : List Char :=
  match text.toList with
  | '+' :: digits => digits
  | digits => digits

/-- The natural that decimal digits denote. -/
def value (digits : List Char) : Nat := digits.foldl (fun n c => 10 * n + (c.toNat - 48)) 0

/-- The natural below a bound that a numeral denotes. -/
def natBelow? (bound : Nat) (text : String) : Option Nat :=
  let digits := digitsOf text
  if digits.isEmpty ∨ !digits.all Char.isDigit then none
  else if value digits < bound then some (value digits)
  else none

end WireParity.Numeral
