import WireParity.Shape.Size

/-!
# Layout tables

An outline lists every part of a shape with its path, offset and size, parents before their parts.
An enum is followed by its tag byte and then its selected payload. Elements of an array with static
size all look alike, so the first stands for all of them.
-/

namespace WireParity

/-- A row of a layout table. -/
structure OutlineRow where
  path : String
  type : String
  offset : Nat
  size : Nat
  depth : Nat
deriving Repr, DecidableEq

/-- The rows of the next `count` elements from an index on, each laid out where the one before it
ends. -/
def outlineElements (outline : Nat → Nat → Except CodecError (Nat × List OutlineRow)) :
    Nat → Nat → Nat → Except CodecError (List OutlineRow)
  | 0, _, _ => .ok []
  | count + 1, index, offset => do
    let (size, rows) ← outline index offset
    let others ← outlineElements outline count (index + 1) (offset + size)
    return rows ++ others

namespace Shape

mutual

/-- The size of the shape at a path, and its rows. -/
def outlineAt (s : Selections) : Shape → String → Nat → Nat →
    Except CodecError (Nat × List OutlineRow)
  | scalar kind, path, offset, depth => do
    let size ← (scalar kind).sizeAt s path
    return (size, [⟨path, (scalar kind).text, offset, size, depth⟩])
  | array elem count, path, offset, depth => do
    let size ← (array elem count).sizeAt s path
    let row : OutlineRow := ⟨path, (array elem count).text, offset, size, depth⟩
    if 0 < count ∧ elem.isStatic then
      let (_, rows) ← elem.outlineAt s (Path.anyElement path) offset (depth + 1)
      return (size, row :: rows)
    else
      let rows ← outlineElements
        (fun index at_ => elem.outlineAt s (Path.element path index) at_ (depth + 1))
        count.toNat 0 offset
      return (size, row :: rows)
  | struct fields, path, offset, depth => do
    let size ← (struct fields).sizeAt s path
    let rows ← outlineFields s path offset (depth + 1) fields
    return (size, ⟨path, (struct fields).text, offset, size, depth⟩ :: rows)
  | enum variants, path, offset, depth => do
    let size ← (enum variants).sizeAt s path
    let name ← s.forSize path
    let rows ← outlineVariant s path name offset (depth + 1) variants
    return (size, ⟨path, (enum variants).text, offset, size, depth⟩ ::
      ⟨Path.child path "<tag>", ScalarKind.u8.name, offset, 1, depth + 1⟩ :: rows)
  | union members, path, offset, depth => do
    let size ← (union members).sizeAt s path
    let name ← s.forSize path
    let rows ← outlineMember s path name offset (depth + 1) members
    return (size, ⟨path, (union members).text, offset, size, depth⟩ :: rows)

/-- The rows of fields the first of which starts at an offset. -/
def outlineFields (s : Selections) (path : String) (offset depth : Nat) :
    List (Named Shape) → Except CodecError (List OutlineRow)
  | [] => .ok []
  | ⟨name, shape⟩ :: rest => do
    let (size, rows) ← shape.outlineAt s (Path.child path name) offset depth
    let others ← outlineFields s path (offset + size) depth rest
    return rows ++ others

/-- The rows of the payload of the variant with a name; it follows the tag. -/
def outlineVariant (s : Selections) (path name : String) (offset depth : Nat) :
    List (Variant Shape) → Except CodecError (List OutlineRow)
  | [] => .ok []
  | ⟨other, _, payload⟩ :: rest =>
    if other = name then
      match payload with
      | none => .ok []
      | some shape => do
        let (_, rows) ← shape.outlineAt s (Path.child path other) (offset + 1) depth
        return rows
    else outlineVariant s path name offset depth rest

/-- The rows of the member with a name. -/
def outlineMember (s : Selections) (path name : String) (offset depth : Nat) :
    List (Named Shape) → Except CodecError (List OutlineRow)
  | [] => .ok []
  | ⟨other, shape⟩ :: rest =>
    if other = name then do
      let (_, rows) ← shape.outlineAt s (Path.child path other) offset depth
      return rows
    else outlineMember s path name offset depth rest

end

/-- The layout table of a shape. -/
def outline (shape : Shape) (s : Selections) : Except CodecError (List OutlineRow) :=
  (shape.outlineAt s Path.root 0 0).map Prod.snd

end Shape

end WireParity
