import WireParity.Shape.Basic
import WireParity.Bytes.LittleEndian
import WireParity.Number.DecimalText

/-!
# Scalars

A scalar is its kind and its bit pattern, which fits the width of the kind. Integers in two's
complement and floats are readings of the pattern, so nothing is lost when a scalar is moved: the
payload of a not-a-number and the sign of zero are part of the value.
-/

namespace WireParity

/-- A scalar value. -/
structure Scalar where
  kind : ScalarKind
  bits : Nat
  fits : bits < Nat.pow 256 kind.width
deriving DecidableEq

namespace ScalarKind

/-- How many values a kind has. -/
def modulus (kind : ScalarKind) : Nat := Nat.pow 256 kind.width

/-- The floating-point format of a kind of floats, of single precision for `f32` and of double
precision for all else. -/
def format : ScalarKind → FloatFormat
  | f32 => .binary32
  | _ => .binary64

/-- The least integer of a kind. -/
def least (kind : ScalarKind) : Int := if kind.isSigned then -(kind.modulus / 2 : Nat) else 0

/-- The integer just above the greatest of a kind. -/
def bound (kind : ScalarKind) : Int :=
  if kind.isSigned then (kind.modulus / 2 : Nat) else (kind.modulus : Nat)

end ScalarKind

namespace Scalar

/-- The scalar with a bit pattern, if the pattern fits. -/
def ofBits? (kind : ScalarKind) (bits : Nat) : Option Scalar :=
  if fits : bits < Nat.pow 256 kind.width then some ⟨kind, bits, fits⟩ else none

/-- The scalar with a bit pattern, cut to the width of the kind. -/
def ofBits (kind : ScalarKind) (bits : Nat) : Scalar :=
  ⟨kind, bits % Nat.pow 256 kind.width, Nat.mod_lt _ (Nat.pow_pos (by decide))⟩

/-- The scalar of an integer kind with a value, if that is in range. -/
def ofInt? (kind : ScalarKind) (n : Int) : Option Scalar :=
  if kind.least ≤ n ∧ n < kind.bound then some (ofBits kind (n % (kind.modulus : Nat)).toNat)
  else none

/-- The pattern as an integer, in two's complement for signed kinds. -/
def toInt (s : Scalar) : Int :=
  if s.kind.isSigned ∧ s.kind.modulus / 2 ≤ s.bits then (s.bits : Int) - (s.kind.modulus : Nat)
  else s.bits

/-- The scalar on the wire. -/
def bytes (s : Scalar) : Bytes := LittleEndian.ofNat s.kind.width s.bits

/-- The scalar of a kind whose bytes these are. Bytes beyond the width are not looked at. -/
def ofBytes (kind : ScalarKind) (bytes : Bytes) : Scalar := ofBits kind (LittleEndian.toNat bytes)

/-- The scalar with its bytes in reverse order. -/
def swap (s : Scalar) : Scalar := ofBytes s.kind s.bytes.reverse

/-- Agreement of two scalars: of one kind and with one pattern. Floats also agree when they are
equal numbers, which the two zeros are; a not-a-number agrees only with its own pattern. -/
def agrees (a b : Scalar) : Bool :=
  decide (a.kind = b.kind) &&
    if a.kind.isFloat then a.kind.format.sameNumber a.bits b.bits else a.bits == b.bits

/-- Floats are written out from 10⁻⁴ up to 10¹⁶, and of two equally near decimals the greater is
taken. -/
def floatStyle : DecimalStyle := ⟨-3, 16, false, .up⟩

/-- The text of a float. One that is not a number shows its pattern. -/
def floatText (s : Scalar) : String :=
  let f := s.kind.format
  if f.isNaN s.bits then "NaN(0x" ++ Hex.word (2 * s.kind.width) s.bits ++ ")"
  else if f.isInfinite s.bits then if f.isNegative s.bits then "-inf" else "inf"
  else floatStyle.finite f s.bits

/-- The text of a scalar. Integers carry the name of their kind. -/
def text (s : Scalar) : String :=
  if s.kind.isFloat then s.floatText else toString s.toInt ++ s.kind.name

end Scalar

end WireParity
