/-!
# Shapes of wire types

A shape says how a value is laid out on the wire. Scalars have a fixed width and are
little-endian; an array is its elements back to back; a struct is its fields back to back, in
order and without padding; an enum is a tag byte and then the payload of its variant; a union is
the bytes of one member, and nothing says which.
-/

namespace WireParity

/-- The kinds of scalar. -/
inductive ScalarKind
  | u8 | u16 | u32 | u64
  | i8 | i16 | i32 | i64
  | f32 | f64
deriving Repr, DecidableEq

namespace ScalarKind

/-- Every kind, in order of declaration. -/
def all : List ScalarKind := [u8, u16, u32, u64, i8, i16, i32, i64, f32, f64]

/-- The width in bytes. -/
def width : ScalarKind → Nat
  | u8 | i8 => 1
  | u16 | i16 => 2
  | u32 | i32 | f32 => 4
  | u64 | i64 | f64 => 8

/-- The name of the kind. -/
def name : ScalarKind → String
  | u8 => "u8"
  | u16 => "u16"
  | u32 => "u32"
  | u64 => "u64"
  | i8 => "i8"
  | i16 => "i16"
  | i32 => "i32"
  | i64 => "i64"
  | f32 => "f32"
  | f64 => "f64"

/-- The kind holds floats. -/
def isFloat : ScalarKind → Bool
  | f32 | f64 => true
  | _ => false

/-- The kind holds integers in two's complement. -/
def isSigned : ScalarKind → Bool
  | i8 | i16 | i32 | i64 => true
  | _ => false

/-- The kind with a given name. -/
def ofName? (text : String) : Option ScalarKind := all.find? fun kind => kind.name == text

end ScalarKind

/-- Something under a name: a field of a struct or a member of a union. -/
structure Named (α : Type) where
  name : String
  item : α
deriving Repr, DecidableEq

/-- A variant of an enum: its name, its tag byte, and what follows the tag. -/
structure Variant (α : Type) where
  name : String
  tag : UInt8
  payload : Option α
deriving Repr, DecidableEq

/-- The shape of a wire type. -/
inductive Shape
  | scalar (kind : ScalarKind)
  | array (elem : Shape) (count : UInt64)
  | struct (fields : List (Named Shape))
  | enum (variants : List (Variant Shape))
  | union (members : List (Named Shape))
deriving Repr

namespace Shape

/-- The short name of the outermost form. -/
def kindName : Shape → String
  | scalar kind => kind.name
  | array _ _ => "array"
  | struct _ => "struct"
  | enum _ => "enum"
  | union _ => "union"

/-- A short text for the shape; structs, enums and unions only count their parts. -/
def text : Shape → String
  | scalar kind => kind.name
  | array elem count => "[" ++ elem.text ++ "; " ++ toString count ++ "]"
  | struct fields => s!"struct({fields.length} fields)"
  | enum variants => s!"enum({variants.length} variants)"
  | union members => s!"union({members.length} variants)"

/-- The enum variant with a name. -/
def variantNamed? (name : String) : Shape → Option (Variant Shape)
  | enum variants => variants.find? fun v => v.name == name
  | _ => none

/-- The enum variant with a tag. -/
def variantTagged? (tag : UInt8) : Shape → Option (Variant Shape)
  | enum variants => variants.find? fun v => v.tag == tag
  | _ => none

/-- The union member with a name. -/
def memberNamed? (name : String) : Shape → Option (Named Shape)
  | union members => members.find? fun m => m.name == name
  | _ => none

mutual

/-- The size does not depend on which variants are chosen. -/
def isStatic : Shape → Bool
  | scalar _ => true
  | array elem count => count == 0 || elem.isStatic
  | struct fields => fieldsStatic fields
  | enum _ => false
  | union _ => false

/-- All fields have static sizes. -/
def fieldsStatic : List (Named Shape) → Bool
  | [] => true
  | ⟨_, shape⟩ :: rest => shape.isStatic && fieldsStatic rest

end

end Shape

end WireParity
