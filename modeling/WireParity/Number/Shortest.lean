import WireParity.Number.FloatFormat

/-!
# The shortest decimal of a float

Of all decimals that a correctly rounding reader takes back to a float, the one with the fewest
digits is chosen, and of those the one nearest to the float's value. The search asks the reader
itself: on the grids of one, two, three and more digits it tries the two neighbours of the value.
-/

namespace WireParity

/-- The decimal `digits * 10 ^ exponent`. -/
structure Decimal where
  digits : Nat
  exponent : Int
deriving Repr, DecidableEq

namespace Decimal

/-- The quotient `num / den` over `10 ^ exponent`, again as a quotient. -/
def scaleDown (num den : Nat) : Int → Nat × Nat
  | .ofNat k => (num, den * Nat.pow 10 k)
  | .negSucc k => (num * Nat.pow 10 (k + 1), den)

/-- The decimal as a quotient. -/
def toQuotient (d : Decimal) : Nat × Nat := scaleDown d.digits 1 (-d.exponent)

/-- The magnitude a reader gives a decimal. -/
def read (f : FloatFormat) (d : Decimal) : Nat :=
  f.nearest d.toQuotient.1 d.toQuotient.2

/-- How many decimal digits a natural has. -/
def digitCount (n : Nat) : Nat := (Nat.toDigits 10 n).length

/-- The least `k` for which the positive quotient `num / den` is below `10 ^ k`. -/
def pointOf (num den : Nat) : Int :=
  if den ≤ num then digitCount (num / den) else 1 - digitCount ((den - 1) / num)

/-- The neighbour of a magnitude's value on a grid that reads back to it. Where both do, it is the
nearer one. -/
def onGrid? (f : FloatFormat) (tie : Tie) (magnitude : Nat) (exponent : Int) : Option Decimal :=
  let q := scaleDown (f.units magnitude) (Nat.pow 2 f.scale) exponent
  let low : Decimal := ⟨q.1 / q.2, exponent⟩
  let high : Decimal := ⟨q.1 / q.2 + 1, exponent⟩
  if low.read f = magnitude then
    if high.read f = magnitude then some ⟨roundDiv tie q.1 q.2, exponent⟩ else some low
  else if high.read f = magnitude then some high
  else none

/-- The exact value of a magnitude. -/
def exact (f : FloatFormat) (magnitude : Nat) : Decimal :=
  ⟨f.units magnitude * Nat.pow 5 f.scale, -(f.scale : Int)⟩

/-- The same decimal without zeros at the end of its digits. -/
def trim (digits : Nat) (exponent : Int) : Decimal :=
  if h : digits ≠ 0 ∧ digits % 10 = 0 then trim (digits / 10) (exponent + 1)
  else ⟨digits, exponent⟩
termination_by digits
decreasing_by omega

/-- The shortest decimal of a positive finite magnitude. Seventeen digits are always enough for
the formats in use; past them the exact value is taken. -/
def shortest (f : FloatFormat) (tie : Tie) (magnitude : Nat) : Decimal :=
  let point := pointOf (f.units magnitude) (Nat.pow 2 f.scale)
  let found := (List.range 17).findSome? fun n => onGrid? f tie magnitude (point - (n + 1 : Nat))
  let d := found.getD (exact f magnitude)
  trim d.digits d.exponent

end Decimal

end WireParity
