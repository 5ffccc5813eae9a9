import WireParity.Value.Basic
import WireParity.Shape.Path

/-!
# Parity of values

Two values are equal for the purposes of parity when their scalars agree everywhere. Struct fields
are matched by name, whatever their order. `difference?` finds the first place where a value is
not what was expected: it goes through the expected value in its own order, and only then looks for
fields that nobody expected.
-/

namespace WireParity

/-- A place where two values differ, and what stands there. -/
structure Difference where
  path : String
  expected : String
  actual : String
deriving Repr, DecidableEq

namespace Value

/-- The first field that is not among the expected ones. -/
def surplusField? (expected actual : List (Named Value)) : Option (Named Value) :=
  actual.find? fun field => !expected.any fun known => known.name == field.name

mutual

/-- The first difference between what is expected at a path and what is there. -/
def differenceAt : Value → Value → String → Option Difference
  | array expected, array actual, path =>
    if expected.length = actual.length then itemsDifference path 0 expected actual
    else some ⟨path, s!"{expected.length} elements", s!"{actual.length} elements"⟩
  | struct expected, struct actual, path =>
    match fieldsDifference path expected actual with
    | some difference => some difference
    | none => (surplusField? expected actual).map fun field =>
      ⟨Path.child path field.name, "<absent>", field.item.text⟩
  | enum expected payload, enum actual payload', path =>
    if expected = actual then
      match payload, payload' with
      | none, none => none
      | some x, some y => x.differenceAt y (Path.child path s!"#{expected}")
      | some x, none => some ⟨path, (enum expected (some x)).text, (enum actual none).text⟩
      | none, some y => some ⟨path, (enum expected none).text, (enum actual (some y)).text⟩
    else some ⟨path, s!"tag {expected}", s!"tag {actual}"⟩
  | scalar expected, scalar actual, path =>
    if expected.agrees actual then none else some ⟨path, expected.text, actual.text⟩
  | expected, actual, path => some ⟨path, expected.text, actual.text⟩

/-- The first difference between items from an index on. -/
def itemsDifference (path : String) (index : Nat) : List Value → List Value → Option Difference
  | x :: xs, y :: ys =>
    match x.differenceAt y (Path.element path index) with
    | some difference => some difference
    | none => itemsDifference path (index + 1) xs ys
  | _, _ => none

/-- The first difference between the expected fields and those of the same names. -/
def fieldsDifference (path : String) : List (Named Value) → List (Named Value) → Option Difference
  | [], _ => none
  | ⟨name, x⟩ :: rest, actual =>
    match fieldIn? name actual with
    | none => some ⟨Path.child path name, x.text, "<missing>"⟩
    | some y =>
      match x.differenceAt y (Path.child path name) with
      | some difference => some difference
      | none => fieldsDifference path rest actual

end

/-- The first difference between an expected value and an actual one. -/
def difference? (expected actual : Value) : Option Difference :=
  expected.differenceAt actual Path.root

/-- The values are equal for the purposes of parity. -/
def agrees (expected actual : Value) : Bool := (expected.difference? actual).isNone

end Value

end WireParity
