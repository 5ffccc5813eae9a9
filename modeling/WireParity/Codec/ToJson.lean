import WireParity.Json.Basic
import WireParity.Bytes.Hex
import WireParity.Shape.Path
import WireParity.Shape.Selections
import WireParity.Value.Basic

/-!
# Values as JSON

What JSON numbers cannot hold is written as text: infinities by name, and a not-a-number by its
bits. A shape lends variants their names; where it does not fit the value, tags are written
instead, so that any value can be shown.
-/

namespace WireParity

namespace Scalar

/-- A scalar as JSON. Floats of single precision are widened, which is exact. -/
def toJson (x : Scalar) : Json :=
  if x.kind.isFloat then
    let f := x.kind.format
    if f.isNaN x.bits then .string ("0x" ++ Hex.word (2 * x.kind.width) x.bits)
    else if f.isInfinite x.bits then .string (if f.isNegative x.bits then "-inf" else "inf")
    else .number (.float (UInt64.ofNat (f.convert .binary64 x.bits)))
  else .int x.toInt

end Scalar

namespace Value

mutual

/-- A value as JSON without a shape: enums are told by their tags. -/
def toJson : Value → Json
  | scalar x => x.toJson
  | array items => .array (itemsToJson items)
  | struct fields => Json.ofMembers (fieldsToJson fields)
  | enum tag none => Json.ofMembers [("tag", .nat tag.toNat)]
  | enum tag (some payload) =>
    Json.ofMembers [("payload", payload.toJson), ("tag", .nat tag.toNat)]

/-- The items of an array. -/
def itemsToJson : List Value → List Json
  | [] => []
  | item :: rest => item.toJson :: itemsToJson rest

/-- The fields of a struct. -/
def fieldsToJson : List (Named Value) → List (String × Json)
  | [] => []
  | ⟨name, value⟩ :: rest => (name, value.toJson) :: fieldsToJson rest

end

end Value

/-- Items from an index on. -/
def jsonItems (write : Value → Nat → Json) (index : Nat) : List Value → List Json
  | [] => []
  | item :: rest => write item index :: jsonItems write (index + 1) rest

namespace Shape

mutual

/-- The value at a path as JSON. -/
def jsonAt (s : Selections) : Shape → Value → String → Json
  | .scalar _, value, _ => value.toJson
  | .array elem _, value, path =>
    match value with
    | .array items =>
      .array (jsonItems (fun item index => elem.jsonAt s item (Path.element path index)) 0 items)
    | _ => value.toJson
  | .struct fields, value, path =>
    match value with
    | .struct values =>
      Json.ofMembers (values.map fun field => (field.name, jsonField s path field fields))
    | _ => value.toJson
  | .enum variants, value, path =>
    match value with
    | .enum tag payload => jsonVariant s path tag payload variants
    | _ => value.toJson
  | .union members, value, path =>
    match s.get? path with
    | none => value.toJson
    | some name => jsonMember s path name value members

/-- A field of a value, by the shape that is declared for its name. -/
def jsonField (s : Selections) (path : String) (field : Named Value) : List (Named Shape) → Json
  | [] => field.item.toJson
  | ⟨name, shape⟩ :: rest =>
    if name = field.name then shape.jsonAt s field.item (Path.child path name)
    else jsonField s path field rest

/-- An enum by the name of the variant with its tag. -/
def jsonVariant (s : Selections) (path : String) (tag : UInt8) (payload : Option Value) :
    List (Variant Shape) → Json
  | [] => (Value.enum tag payload).toJson
  | ⟨name, other, declared⟩ :: rest =>
    if other = tag then
      match payload with
      | none => Json.ofMembers [("variant", .string name)]
      | some value =>
        let json := match declared with
          | some shape => shape.jsonAt s value (Path.child path name)
          | none => value.toJson
        Json.ofMembers [("payload", json), ("variant", .string name)]
    else jsonVariant s path tag payload rest

/-- A value as the member with a name. -/
def jsonMember (s : Selections) (path name : String) (value : Value) : List (Named Shape) → Json
  | [] => value.toJson
  | ⟨other, shape⟩ :: rest =>
    if other = name then shape.jsonAt s value (Path.child path other)
    else jsonMember s path name value rest

end

/-- A value of a shape as JSON. -/
def jsonOfValue (shape : Shape) (value : Value) (s : Selections) : Json :=
  shape.jsonAt s value Path.root

end Shape

end WireParity
