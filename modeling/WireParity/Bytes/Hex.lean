import WireParity.Text.Quoted

/-!
# Hexadecimal text of bytes and words

Bytes are written as two lower-case digits each and read back in either case. A reader that
refuses a text says why: an odd number of digits is noticed first, then the leftmost character
that is not a digit. It goes through the octets of the text, so a character beyond ASCII is shown
by the first of them. Words are written with a fixed number of digits, most significant first.
-/

namespace WireParity

/-- A byte string, first byte first. -/
abbrev Bytes := List UInt8

namespace Hex

/-- The lower-case digit of a number below sixteen. -/
def digit (n : Nat) : Char :=
  if n < 10 then Char.ofNat (48 + n) else Char.ofNat (87 + n)

/-- The number that a hexadecimal digit of either case stands for. -/
def digitValue? (c : Char) : Option Nat :=
  if '0' ≤ c ∧ c ≤ '9' then some (c.toNat - 48)
  else if 'a' ≤ c ∧ c ≤ 'f' then some (c.toNat - 87)
  else if 'A' ≤ c ∧ c ≤ 'F' then some (c.toNat - 55)
  else none

/-- The two digits of one byte. -/
def byteDigits (b : UInt8) : List Char :=
  [digit (b.toNat / 16), digit (b.toNat % 16)]

/-- The digits of a byte string. -/
def digitsOf : Bytes → List Char
  | [] => []
  | b :: rest => byteDigits b ++ digitsOf rest

/-- A byte string as lower-case hexadecimal text. -/
def encode (bytes : Bytes) : String := String.ofList (digitsOf bytes)

/-- Why a text is not a byte string. -/
inductive Fault
  | oddLength
  | badDigit (c : Char) (index : Nat)
deriving Repr, DecidableEq

/-- The wording of a fault. -/
def Fault.message : Fault → String
  | .oddLength => "Odd number of digits"
  | .badDigit c index => s!"Invalid character {Text.quotedAlone c} at position {index}"

/-- The octets of a character, each as the character with its number. -/
def octets (c : Char) : List Char := (String.utf8EncodeChar c).map fun b => Char.ofNat b.toNat

/-- Reads digits in pairs, counting positions from the given index. -/
def decodeDigits (index : Nat) : List Char → Except Fault Bytes
  | [] => .ok []
  | [_] => .error .oddLength
  | a :: b :: rest =>
    match digitValue? a with
    | none => .error (.badDigit a index)
    | some high =>
      match digitValue? b with
      | none => .error (.badDigit b (index + 1))
      | some low =>
        (decodeDigits (index + 2) rest).map (UInt8.ofNat (16 * high + low) :: ·)

/-- Reads hexadecimal text. -/
def decode (text : String) : Except Fault Bytes :=
  let digits := text.toList.flatMap octets
  if digits.length % 2 = 1 then .error .oddLength else decodeDigits 0 digits

/-- The low digits of a number, least significant first. -/
def lowDigits : Nat → Nat → List Char
  | 0, _ => []
  | width + 1, n => digit (n % 16) :: lowDigits width (n / 16)

/-- A number as exactly `width` digits. -/
def word (width n : Nat) : String := String.ofList (lowDigits width n).reverse

/-- One byte as two upper-case digits. -/
def upperByte (b : UInt8) : String := String.ofList ((byteDigits b).map Char.toUpper)

/-- The number that a list of digits denotes, `none` at the first character that is no digit. -/
def number? (start : Nat) : List Char → Option Nat
  | [] => some start
  | c :: rest => (digitValue? c).bind fun d => number? (16 * start + d) rest

/-- An unsigned hexadecimal numeral below a bound: one digit at least, after an optional plus sign. -/
def numeralBelow? (bound : Nat) (text : List Char) : Option Nat :=
  let digits := match text with
    | '+' :: rest => rest
    | other => other
  match digits with
  | [] => none
  | digits => (number? 0 digits).filter (· < bound)

end Hex

end WireParity
