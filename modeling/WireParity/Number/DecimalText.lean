import WireParity.Number.Shortest

/-!
# Decimal text of numbers

`DecimalStyle` holds the decisions of a format that writes floats with as few digits as identify
them: between which positions of the point the number is written out, whether a positive exponent
has a sign, and which of two equally near decimals is taken. `fixedPlaces` is the other kind of
text, with a set number of digits after the point.
-/

namespace WireParity

/-- How shortest decimals are laid out. A number `0.d₁d₂… × 10 ^ point` is written out when `point`
lies between the two bounds, and with an exponent otherwise. -/
structure DecimalStyle where
  leastPoint : Int
  mostPoint : Int
  plusSign : Bool
  tie : Tie
deriving Repr, DecidableEq

/-- A run of zeros. -/
def zeros (n : Nat) : String := String.ofList (List.replicate n '0')

namespace DecimalStyle

/-- Digits with a point after the first `point` of them, and at least one digit on each side. -/
def positional (digits : List Char) (point : Int) : String :=
  if point ≤ 0 then "0." ++ zeros point.natAbs ++ String.ofList digits
  else if digits.length ≤ point.toNat then
    String.ofList digits ++ zeros (point.toNat - digits.length) ++ ".0"
  else
    String.ofList (digits.take point.toNat) ++ "." ++ String.ofList (digits.drop point.toNat)

/-- Digits with a point after the first, if there are more, and an exponent. -/
def scientific (style : DecimalStyle) (digits : List Char) (point : Int) : String :=
  let fraction := match digits.drop 1 with
    | [] => ""
    | rest => "." ++ String.ofList rest
  let sign := if style.plusSign ∧ 0 < point - 1 then "+" else ""
  String.ofList (digits.take 1) ++ fraction ++ "e" ++ sign ++ toString (point - 1)

/-- The text of a decimal. -/
def decimal (style : DecimalStyle) (d : Decimal) : String :=
  let digits := Nat.toDigits 10 d.digits
  let point := digits.length + d.exponent
  if style.leastPoint ≤ point ∧ point ≤ style.mostPoint then positional digits point
  else style.scientific digits point

/-- The text of a float that is finite. -/
def finite (style : DecimalStyle) (f : FloatFormat) (bits : Nat) : String :=
  let magnitude := f.magnitude bits
  let sign := if f.isNegative bits then "-" else ""
  if magnitude = 0 then sign ++ "0.0"
  else sign ++ style.decimal (Decimal.shortest f style.tie magnitude)

end DecimalStyle

/-- The quotient `num / den` with a set number of digits after the point, ties to even. -/
def fixedPlaces (places num den : Nat) : String :=
  let rounded := roundDiv .even (num * Nat.pow 10 places) den
  let fraction := Nat.toDigits 10 (rounded % Nat.pow 10 places)
  toString (rounded / Nat.pow 10 places) ++ "." ++ zeros (places - fraction.length) ++
    String.ofList fraction

end WireParity
