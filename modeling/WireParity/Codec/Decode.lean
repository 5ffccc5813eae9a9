import WireParity.CodecError
import WireParity.Shape.Selections
import WireParity.Value.Basic

/-!
# Decoding

A decoder takes bytes from the front and hands on the rest, so it stops as soon as the shape is
satisfied. Whether bytes may be left over is for the caller to say.
-/

namespace WireParity

/-- Splits off the first `count` bytes, if there are so many. -/
def splitFront? : Nat → Bytes → Option (Bytes × Bytes)
  | 0, bytes => some ([], bytes)
  | _ + 1, [] => none
  | count + 1, b :: rest => (splitFront? count rest).map fun parts => (b :: parts.1, parts.2)

/-- Takes the bytes of the part at a path. -/
def takeFront (path : String) (count : Nat) (bytes : Bytes) : Except CodecError (Bytes × Bytes) :=
  match splitFront? count bytes with
  | some parts => .ok parts
  | none => .error ⟨path, .truncatedInput count bytes.length⟩

/-- Reads the next `count` items from an index on, one after another. -/
def readItems (read : Nat → Bytes → Except CodecError (Value × Bytes)) :
    Nat → Nat → Bytes → Except CodecError (List Value × Bytes)
  | 0, _, bytes => .ok ([], bytes)
  | count + 1, index, bytes => do
    let (item, rest) ← read index bytes
    let (items, rest) ← readItems read count (index + 1) rest
    return (item :: items, rest)

namespace Shape

mutual

/-- Reads the value at a path from the front of bytes. -/
def decodeAt (s : Selections) : Shape → String → Bytes → Except CodecError (Value × Bytes)
  | .scalar kind, path, bytes => do
    let (front, rest) ← takeFront path kind.width bytes
    return (.scalar (Scalar.ofBytes kind front), rest)
  | .array elem count, path, bytes => do
    let (items, rest) ←
      readItems (fun index => elem.decodeAt s (Path.element path index)) count.toNat 0 bytes
    return (.array items, rest)
  | .struct fields, path, bytes => do
    let (values, rest) ← decodeFields s path fields bytes
    return (.struct values, rest)
  | .enum variants, path, bytes =>
    match bytes with
    | [] => .error ⟨path, .truncatedInput 1 0⟩
    | tag :: rest => decodeVariant s path tag rest variants
  | .union members, path, bytes =>
    match s.get? path with
    | none => .error ⟨path, .missingVariantContext⟩
    | some name => decodeMember s path name bytes members

/-- Reads fields in order. -/
def decodeFields (s : Selections) (path : String) :
    List (Named Shape) → Bytes → Except CodecError (List (Named Value) × Bytes)
  | [], bytes => .ok ([], bytes)
  | ⟨name, shape⟩ :: others, bytes => do
    let (value, rest) ← shape.decodeAt s (Path.child path name) bytes
    let (values, rest) ← decodeFields s path others rest
    return (⟨name, value⟩ :: values, rest)

/-- Reads the payload of the variant with a tag. -/
def decodeVariant (s : Selections) (path : String) (tag : UInt8) (bytes : Bytes) :
    List (Variant Shape) → Except CodecError (Value × Bytes)
  | [] => .error ⟨path, .unknownVariant (.tag tag.toNat)⟩
  | ⟨name, other, declared⟩ :: others =>
    if other = tag then
      match declared with
      | none => .ok (.enum tag none, bytes)
      | some shape => do
        let (payload, rest) ← shape.decodeAt s (Path.child path name) bytes
        return (.enum tag (some payload), rest)
    else decodeVariant s path tag bytes others

/-- Reads the member with a name. -/
def decodeMember (s : Selections) (path name : String) (bytes : Bytes) :
    List (Named Shape) → Except CodecError (Value × Bytes)
  | [] => .error ⟨path, .unknownVariant (.name name)⟩
  | ⟨other, shape⟩ :: others =>
    if other = name then shape.decodeAt s (Path.child path other) bytes
    else decodeMember s path name bytes others

end

/-- Reads a value from the front of bytes: the value, and how many bytes it took. -/
def decodeFront (shape : Shape) (bytes : Bytes) (s : Selections) :
    Except CodecError (Value × Nat) :=
  (shape.decodeAt s Path.root bytes).map fun result =>
    (result.1, bytes.length - result.2.length)

/-- Reads a value from the front of bytes. What follows it is not looked at. -/
def decode (shape : Shape) (bytes : Bytes) (s : Selections) : Except CodecError Value :=
  (shape.decodeFront bytes s).map Prod.fst

end Shape

end WireParity
