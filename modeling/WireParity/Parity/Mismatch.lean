import WireParity.Codec.ToJson
import WireParity.Value.Difference

/-!
# Mismatches

Where two byte strings or two values part company, with all that a report says about it.
-/

namespace WireParity

/-- The first byte at which an actual byte string departs from the expected one. A byte past an end
is none. -/
structure ByteMismatch where
  offset : Nat
  expectedByte : Option UInt8
  actualByte : Option UInt8
  expectedLength : Nat
  actualLength : Nat
  expectedHex : String
  actualHex : String
deriving Repr, DecidableEq

/-- The first difference between two values, and both values in full. -/
structure ValueMismatch where
  path : String
  expected : String
  actual : String
  expectedJson : Json
  actualJson : Json
deriving Repr

/-- The position of the first difference; where one string ends first, its length. -/
def divergence? : Bytes → Bytes → Option Nat
  | [], [] => none
  | x :: xs, y :: ys => if x = y then (divergence? xs ys).map (· + 1) else some 0
  | _, _ => some 0

/-- The first mismatch of two byte strings. -/
def byteMismatch? (expected actual : Bytes) : Option ByteMismatch :=
  (divergence? expected actual).map fun offset =>
    { offset
      expectedByte := expected[offset]?
      actualByte := actual[offset]?
      expectedLength := expected.length
      actualLength := actual.length
      expectedHex := Hex.encode expected
      actualHex := Hex.encode actual }

/-- The first mismatch of two values of a shape. -/
def valueMismatch? (shape : Shape) (s : Selections) (expected actual : Value) :
    Option ValueMismatch :=
  (expected.difference? actual).map fun difference =>
    { path := difference.path
      expected := difference.expected
      actual := difference.actual
      expectedJson := shape.jsonOfValue expected s
      actualJson := shape.jsonOfValue actual s }

end WireParity
