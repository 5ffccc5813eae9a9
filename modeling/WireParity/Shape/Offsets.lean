import WireParity.Shape.Size

/-!
# Where the fields of a struct lie

A field starts where the one before it ends.
-/

namespace WireParity

/-- The place of one field. -/
structure FieldSpan where
  name : String
  offset : Nat
  size : Nat
deriving Repr, DecidableEq

namespace Shape

/-- The error of asking for the fields of something that has none. -/
def notStruct (shape : Shape) : CodecError := ⟨Path.root, .typeMismatch "struct" shape.kindName⟩

/-- The places of fields, the first of which starts at the offset. -/
def spansFrom (s : Selections) (offset : Nat) : List (Named Shape) → Except CodecError (List FieldSpan)
  | [] => .ok []
  | ⟨name, shape⟩ :: rest => do
    let size ← shape.sizeAt s name
    let next ← checkedSize Path.root (offset + size)
    let spans ← spansFrom s next rest
    return ⟨name, offset, size⟩ :: spans

/-- The places of all fields of a struct. -/
def fieldSpans (shape : Shape) (s : Selections) : Except CodecError (List FieldSpan) :=
  match shape with
  | struct fields => spansFrom s 0 fields
  | other => .error other.notStruct

/-- The offset of the field with a name among fields the first of which starts at an offset. Only
the fields before it are sized. -/
def offsetFrom (s : Selections) (field : String) (offset : Nat) :
    List (Named Shape) → Except CodecError Nat
  | [] => .error ⟨Path.root, .unknownField field⟩
  | ⟨name, shape⟩ :: rest =>
    if name = field then .ok offset
    else do
      let size ← shape.sizeAt s name
      let next ← checkedSize Path.root (offset + size)
      offsetFrom s field next rest

/-- The offset of the field of a struct with a name. -/
def fieldOffset (shape : Shape) (field : String) (s : Selections) : Except CodecError Nat :=
  match shape with
  | struct fields => offsetFrom s field 0 fields
  | other => .error other.notStruct

end Shape

end WireParity
