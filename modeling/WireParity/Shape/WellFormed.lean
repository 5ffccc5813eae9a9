import WireParity.CodecError

/-!
# Well-formed shapes

The codec finds fields and members by name and variants by name or tag, so within one parent these
have to be unique, and an enum or union needs something to choose from. `validate` reports the
first fault in order of declaration, parents before what lies inside.
-/

namespace WireParity.Shape

/-- Refuses a shape at a path. -/
def refuse (path : String) (fault : ShapeFault) : Except CodecError Unit :=
  .error ⟨path, .invalidDescriptor fault⟩

mutual

/-- Checks the shape at a path and everything inside it. -/
def validateAt : Shape → String → Except CodecError Unit
  | scalar _, _ => .ok ()
  | array elem _, path => elem.validateAt (path ++ "[]")
  | struct fields, path => validateFields path [] fields
  | enum variants, path =>
    if variants.isEmpty then refuse path .enumWithoutVariants
    else validateVariants path [] [] variants
  | union members, path =>
    if members.isEmpty then refuse path .unionWithoutVariants
    else validateMembers path [] members

/-- Checks the fields of a struct, after those with the names seen before. -/
def validateFields (path : String) (seen : List String) :
    List (Named Shape) → Except CodecError Unit
  | [] => .ok ()
  | ⟨name, shape⟩ :: rest =>
    if name ∈ seen then refuse path (.duplicateField name)
    else do
      shape.validateAt (Path.child path name)
      validateFields path (name :: seen) rest

/-- Checks the variants of an enum, after those with the names and tags seen before. -/
def validateVariants (path : String) (seen : List String) (tags : List UInt8) :
    List (Variant Shape) → Except CodecError Unit
  | [] => .ok ()
  | ⟨name, tag, payload⟩ :: rest =>
    if name ∈ seen then refuse path (.duplicateVariant name)
    else if tag ∈ tags then refuse path (.duplicateTag tag)
    else match payload with
      | none => validateVariants path (name :: seen) (tag :: tags) rest
      | some shape => do
        shape.validateAt (Path.child path name)
        validateVariants path (name :: seen) (tag :: tags) rest

/-- Checks the members of a union, after those with the names seen before. -/
def validateMembers (path : String) (seen : List String) :
    List (Named Shape) → Except CodecError Unit
  | [] => .ok ()
  | ⟨name, shape⟩ :: rest =>
    if name ∈ seen then refuse path (.duplicateVariant name)
    else do
      shape.validateAt (Path.child path name)
      validateMembers path (name :: seen) rest

end

/-- Checks a shape. -/
def validate (shape : Shape) : Except CodecError Unit := shape.validateAt Path.root

end WireParity.Shape
