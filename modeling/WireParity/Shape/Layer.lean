import WireParity.Json.Record
import WireParity.Shape.Basic

/-!
# One level of a type in JSON

A type is written as an object with one key, which names its form. The forms and the keys of their
parts are the same for shapes and for the schemas of a manifest; what stands for a part is read by
whoever reads the whole.
-/

namespace WireParity

/-- A form of type over parts that are already read. -/
inductive Layer (α : Type)
  | scalar (kind : ScalarKind)
  | array (elem : α) (count : UInt64)
  | struct (fields : List (Named α))
  | enum (variants : List (Variant α))
  | union (members : List (Named α))

namespace Layer

variable {α : Type}

/-- A kind of scalar: its name, or an object that has the name for its only key and null under it. -/
def kind? : WrittenJson → Option ScalarKind
  | .string name => ScalarKind.ofName? name
  | .object [(name, .null)] => ScalarKind.ofName? name
  | _ => none

/-- A field or member. -/
def named? (read : WrittenJson → Option α) (json : WrittenJson) : Option (Named α) :=
  match json.record? false ["name", "type"] with
  | some [name, type] => do
    let name ← name.required WrittenJson.text?
    let item ← type.required read
    return ⟨name, item⟩
  | _ => none

/-- A variant of an enum. -/
def variant? (read : WrittenJson → Option α) (json : WrittenJson) : Option (Variant α) :=
  match json.record? false ["name", "tag", "payload"] with
  | some [name, tag, payload] => do
    let name ← name.required WrittenJson.text?
    let tag ← tag.required (WrittenJson.natBelow? 256)
    let payload ← payload.orDefault none (Slot.nullable read)
    return ⟨name, UInt8.ofNat tag, payload⟩
  | _ => none

/-- A record whose only field is a list. -/
def listUnder? {β : Type} (key : String) (read : WrittenJson → Option β) (json : WrittenJson) :
    Option (List β) :=
  match json.record? false [key] with
  | some [list] => list.required (WrittenJson.list? read)
  | _ => none

/-- The form that a key names, with its parts. -/
def read? (read : WrittenJson → Option α) (key : String) (body : WrittenJson) : Option (Layer α) :=
  match key with
  | "primitive" => (kind? body).map .scalar
  | "fixed_array" =>
    match body.record? false ["elem", "count"] with
    | some [elem, count] => do
      let elem ← elem.required read
      let count ← count.required (WrittenJson.natBelow? (Nat.pow 2 64))
      return .array elem (UInt64.ofNat count)
    | _ => none
  | "struct" => (listUnder? "fields" (named? read) body).map .struct
  | "enum" => (listUnder? "variants" (variant? read) body).map .enum
  | "union" => (listUnder? "variants" (named? read) body).map .union
  | _ => none

end Layer

end WireParity
