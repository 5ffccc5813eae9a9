import WireParity.CodecError
import WireParity.Shape.Selections

/-!
# Encoded sizes

The size of a shape is a number of bytes below 2⁶⁴; a shape that would take more is refused. Enums
and unions have the size of the variant that is selected for their path.
-/

namespace WireParity

/-- Sizes are below this number. -/
def sizeLimit : Nat := Nat.pow 2 64

/-- A size, refused for the shape at the path where it is beyond the limit. -/
def checkedSize (path : String) (size : Nat) : Except CodecError Nat :=
  if size < sizeLimit then .ok size else .error ⟨path, .invalidDescriptor .sizeOverflow⟩

/-- The sum of the sizes of the next `count` elements from an index on, added to a total. Every
partial sum is checked. -/
def sumSizes (path : String) (size : Nat → Except CodecError Nat) :
    Nat → Nat → Nat → Except CodecError Nat
  | 0, _, total => .ok total
  | count + 1, index, total => do
    let one ← size index
    let sum ← checkedSize path (total + one)
    sumSizes path size count (index + 1) sum

namespace Selections

/-- The variant selected at a path whose size is asked for. -/
def forSize (s : Selections) (path : String) : Except CodecError String :=
  match s.get? path with
  | some name => .ok name
  | none => .error ⟨path, .unresolvedVariant⟩

end Selections

namespace Shape

mutual

/-- The size of the shape at a path. An array of static elements is sized by one of them, at the
array's own path; otherwise each element may have a size of its own. -/
def sizeAt (s : Selections) : Shape → String → Except CodecError Nat
  | scalar kind, _ => .ok kind.width
  | array elem count, path =>
    if count = 0 then .ok 0
    else if elem.isStatic then do
      let one ← elem.sizeAt s path
      checkedSize path (one * count.toNat)
    else sumSizes path (fun i => elem.sizeAt s (Path.element path i)) count.toNat 0 0
  | struct fields, path => sizeFields s path 0 fields
  | enum variants, path => do
    let name ← s.forSize path
    let payload ← sizeVariant s path name variants
    checkedSize path (payload + 1)
  | union members, path => do
    let name ← s.forSize path
    sizeMember s path name members

/-- The size of fields, added to a total. Every partial sum is checked. -/
def sizeFields (s : Selections) (path : String) (total : Nat) :
    List (Named Shape) → Except CodecError Nat
  | [] => .ok total
  | ⟨name, shape⟩ :: rest => do
    let one ← shape.sizeAt s (Path.child path name)
    let sum ← checkedSize path (total + one)
    sizeFields s path sum rest

/-- The size of the payload of the variant with a name. -/
def sizeVariant (s : Selections) (path name : String) :
    List (Variant Shape) → Except CodecError Nat
  | [] => .error ⟨path, .unknownVariant (.name name)⟩
  | ⟨other, _, payload⟩ :: rest =>
    if other = name then
      match payload with
      | none => .ok 0
      | some shape => shape.sizeAt s (Path.child path other)
    else sizeVariant s path name rest

/-- The size of the member with a name. -/
def sizeMember (s : Selections) (path name : String) :
    List (Named Shape) → Except CodecError Nat
  | [] => .error ⟨path, .unknownVariant (.name name)⟩
  | ⟨other, shape⟩ :: rest =>
    if other = name then shape.sizeAt s (Path.child path other)
    else sizeMember s path name rest

end

/-- The encoded size of a shape. -/
def size (shape : Shape) (s : Selections) : Except CodecError Nat := shape.sizeAt s Path.root

end Shape

end WireParity
