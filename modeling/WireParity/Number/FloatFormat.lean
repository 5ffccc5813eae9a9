import WireParity.Number.Rounding

/-!
# Binary floating point as bit patterns

A float is held as its bit pattern, never as a machine float, so that every pattern survives and
every rule about it is arithmetic on naturals. The sign is the top bit; what is below it is the
*magnitude*, and magnitudes are ordered as the values are. All finite values of a format are
multiples of its least positive one, the *unit*: `units` counts them, and `nearest` goes back from
any quotient to the magnitude whose value is closest, ties to even.
-/

namespace WireParity

/-- A binary interchange format: bits of the significand (the hidden one included) and of the
exponent. -/
structure FloatFormat where
  precision : Nat
  exponentBits : Nat
deriving Repr, DecidableEq

namespace FloatFormat

/-- Single precision, 32 bits. -/
def binary32 : FloatFormat := ⟨24, 8⟩

/-- Double precision, 64 bits. -/
def binary64 : FloatFormat := ⟨53, 11⟩

/-- The weight of the hidden bit, and the distance between two exponents of a magnitude. -/
def hidden (f : FloatFormat) : Nat := Nat.pow 2 (f.precision - 1)

/-- The magnitude of infinity; larger ones are not numbers. -/
def infinity (f : FloatFormat) : Nat := (Nat.pow 2 f.exponentBits - 1) * f.hidden

/-- The weight of the sign bit. -/
def signWeight (f : FloatFormat) : Nat := Nat.pow 2 f.exponentBits * f.hidden

/-- The magnitude of the quiet not-a-number that arithmetic makes. -/
def quietNaN (f : FloatFormat) : Nat := f.infinity + Nat.pow 2 (f.precision - 2)

/-- The unit of the format is `2 ^ -scale`. -/
def scale (f : FloatFormat) : Nat := Nat.pow 2 (f.exponentBits - 1) + f.precision - 3

/-- The bits below the sign. -/
def magnitude (f : FloatFormat) (bits : Nat) : Nat := bits % f.signWeight

/-- The sign bit is set. -/
def isNegative (f : FloatFormat) (bits : Nat) : Bool := decide (f.signWeight ≤ bits)

/-- The pattern is not a number. -/
def isNaN (f : FloatFormat) (bits : Nat) : Bool := decide (f.infinity < f.magnitude bits)

/-- The pattern is an infinity of either sign. -/
def isInfinite (f : FloatFormat) (bits : Nat) : Bool := decide (f.magnitude bits = f.infinity)

/-- A magnitude with a sign. -/
def withSign (f : FloatFormat) (negative : Bool) (magnitude : Nat) : Nat :=
  if negative then f.signWeight + magnitude else magnitude

/-- The significand of a finite magnitude, with the hidden bit where there is one. -/
def significand (f : FloatFormat) (magnitude : Nat) : Nat :=
  if magnitude < f.hidden then magnitude else magnitude % f.hidden + f.hidden

/-- How many powers of two the significand is moved up from the least exponent. -/
def binade (f : FloatFormat) (magnitude : Nat) : Nat := magnitude / f.hidden - 1

/-- The value of a finite magnitude, in units. -/
def units (f : FloatFormat) (magnitude : Nat) : Nat :=
  f.significand magnitude * Nat.pow 2 (f.binade magnitude)

/-- The magnitude whose value is nearest to `num / den` units, ties to even; too large a value is
infinite. -/
def nearestUnits (f : FloatFormat) (num den : Nat) : Nat :=
  let step := Nat.log2 (num / den) + 1 - f.precision
  min f.infinity (step * f.hidden + roundDiv .even num (den * Nat.pow 2 step))

/-- The magnitude nearest to the quotient `num / den`. -/
def nearest (f : FloatFormat) (num den : Nat) : Nat :=
  f.nearestUnits (num * Nat.pow 2 f.scale) den

/-- The pattern of another format nearest to a finite pattern of this one. -/
def convert (source target : FloatFormat) (bits : Nat) : Nat :=
  target.withSign (source.isNegative bits)
    (target.nearest (source.units (source.magnitude bits)) (Nat.pow 2 source.scale))

/-- The nearest pattern to an integer. -/
def ofInt (f : FloatFormat) (n : Int) : Nat :=
  f.withSign (decide (n < 0)) (f.nearest n.natAbs 1)

/-- Equality of numbers: the two zeros are equal, and a not-a-number equals exactly its own
pattern. -/
def sameNumber (f : FloatFormat) (a b : Nat) : Bool :=
  if f.isNaN a || f.isNaN b then a == b
  else a == b || (f.magnitude a == 0 && f.magnitude b == 0)

end FloatFormat

end WireParity
