import WireParity.CodecError
import WireParity.Shape.Selections
import WireParity.Value.Basic

/-!
# Encoding

The shape drives: it says which fields are written, in which order, and which variant a tag or a
selection stands for. What an encoder has written before it fails stays written, so an emission is
the bytes so far and perhaps the error that stopped it.

Records that follow one another go into one buffer. Appending passes the buffer along and puts each
piece at its end as it comes, so that nothing is written apart and copied.
-/

namespace WireParity

/-- Bytes that were written, and the error after which writing stopped, if there was one. -/
structure Emission where
  bytes : Bytes
  stop : Option CodecError
deriving Repr, DecidableEq

namespace Emission

/-- Bytes written without an error. -/
def write (bytes : Bytes) : Emission := ⟨bytes, none⟩

/-- An error before anything is written. -/
def fail (path : String) (cause : Cause) : Emission := ⟨[], some ⟨path, cause⟩⟩

/-- Goes on writing, unless writing has stopped. -/
def andThen (first : Emission) (next : Unit → Emission) : Emission :=
  match first.stop with
  | none => let rest := next (); ⟨first.bytes ++ rest.bytes, rest.stop⟩
  | some _ => first

/-- The bytes of a completed emission, or its error. -/
def toExcept (e : Emission) : Except CodecError Bytes :=
  match e.stop with
  | none => .ok e.bytes
  | some error => .error error

end Emission

/-- Writes items from an index on, one after another. -/
def emitItems (emit : Value → Nat → Emission) (index : Nat) : List Value → Emission
  | [] => .write []
  | item :: rest => (emit item index).andThen fun _ => emitItems emit (index + 1) rest

namespace Value

/-- The first field of a value that the shape does not declare. -/
def undeclaredField? (declared : List (Named Shape)) (fields : List (Named Value)) :
    Option (Named Value) :=
  fields.find? fun field => !declared.any fun known => known.name == field.name

/-- The error of a value whose form is not the expected one. -/
def mismatch (path expected : String) (value : Value) : Emission :=
  .fail path (.typeMismatch expected value.kindName)

end Value

namespace Shape

mutual

/-- Writes the value at a path. -/
def encodeAt (s : Selections) : Shape → Value → String → Emission
  | .scalar kind, value, path =>
    match value with
    | .scalar x => if x.kind = kind then .write x.bytes else value.mismatch path kind.name
    | _ => value.mismatch path kind.name
  | .array elem count, value, path =>
    match value with
    | .array items =>
      if items.length = count.toNat then
        emitItems (fun item index => elem.encodeAt s item (Path.element path index)) 0 items
      else .fail path (.arityMismatch count.toNat items.length)
    | _ => value.mismatch path "array"
  | .struct fields, value, path =>
    match value with
    | .struct values =>
      match Value.undeclaredField? fields values with
      | some extra => .fail path (.unknownField extra.name)
      | none => encodeFields s path values fields
    | _ => value.mismatch path "struct"
  | .enum variants, value, path =>
    match value with
    | .enum tag payload => encodeVariant s path tag payload variants
    | _ => value.mismatch path "enum"
  | .union members, value, path =>
    match s.get? path with
    | none => .fail path .missingVariantContext
    | some name => encodeMember s path name value members

/-- Writes declared fields in order, each with the value of its name. -/
def encodeFields (s : Selections) (path : String) (values : List (Named Value)) :
    List (Named Shape) → Emission
  | [] => .write []
  | ⟨name, shape⟩ :: rest =>
    match Value.fieldIn? name values with
    | none => .fail path (.missingField name)
    | some value => (shape.encodeAt s value (Path.child path name)).andThen fun _ =>
      encodeFields s path values rest

/-- Writes the variant with a tag: the tag byte, then the payload. -/
def encodeVariant (s : Selections) (path : String) (tag : UInt8) (payload : Option Value) :
    List (Variant Shape) → Emission
  | [] => .fail path (.unknownVariant (.tag tag.toNat))
  | ⟨name, other, declared⟩ :: rest =>
    if other = tag then
      (Emission.write [other]).andThen fun _ =>
        match declared, payload with
        | some shape, some value => shape.encodeAt s value (Path.child path name)
        | none, none => .write []
        | some _, none => .fail path (.invalidValue (.needsPayload name))
        | none, some _ => .fail path (.invalidValue (.carriesNoPayload name))
    else encodeVariant s path tag payload rest

/-- Writes a value as the member with a name. -/
def encodeMember (s : Selections) (path name : String) (value : Value) :
    List (Named Shape) → Emission
  | [] => .fail path (.unknownVariant (.name name))
  | ⟨other, shape⟩ :: rest =>
    if other = name then shape.encodeAt s value (Path.child path other)
    else encodeMember s path name value rest

end

/-- Writes a value of a shape. -/
def emission (shape : Shape) (value : Value) (s : Selections) : Emission :=
  shape.encodeAt s value Path.root

/-- The encoding of a value of a shape. -/
def encode (shape : Shape) (value : Value) (s : Selections) : Except CodecError Bytes :=
  (shape.emission value s).toExcept

end Shape

/-- Something that is done to a buffer. An error stops it, and leaves the buffer as it is by then. -/
abbrev Appending := EStateM CodecError Bytes

namespace Appending

/-- Puts bytes at the end of the buffer. -/
def push (bytes : Bytes) : Appending Unit := modify fun buffer => buffer ++ bytes

/-- Stops with an error at a path. -/
def fail (path : String) (cause : Cause) : Appending Unit := throw ⟨path, cause⟩

/-- Stops because the form of a value is not the expected one. -/
def mismatch (path expected : String) (value : Value) : Appending Unit :=
  fail path (.typeMismatch expected value.kindName)

/-- Appends items from an index on, one after another. -/
def items (append : Value → Nat → Appending Unit) (index : Nat) : List Value → Appending Unit
  | [] => return
  | item :: rest => do
    append item index
    items append (index + 1) rest

end Appending

namespace Shape

mutual

/-- Appends the value at a path. -/
def appendAt (s : Selections) : Shape → Value → String → Appending Unit
  | .scalar kind, value, path =>
    match value with
    | .scalar x => if x.kind = kind then .push x.bytes else .mismatch path kind.name value
    | _ => .mismatch path kind.name value
  | .array elem count, value, path =>
    match value with
    | .array items =>
      if items.length = count.toNat then
        .items (fun item index => elem.appendAt s item (Path.element path index)) 0 items
      else .fail path (.arityMismatch count.toNat items.length)
    | _ => .mismatch path "array" value
  | .struct fields, value, path =>
    match value with
    | .struct values =>
      match Value.undeclaredField? fields values with
      | some extra => .fail path (.unknownField extra.name)
      | none => appendFields s path values fields
    | _ => .mismatch path "struct" value
  | .enum variants, value, path =>
    match value with
    | .enum tag payload => appendVariant s path tag payload variants
    | _ => .mismatch path "enum" value
  | .union members, value, path =>
    match s.get? path with
    | none => .fail path .missingVariantContext
    | some name => appendMember s path name value members

/-- Appends declared fields in order, each with the value of its name. -/
def appendFields (s : Selections) (path : String) (values : List (Named Value)) :
    List (Named Shape) → Appending Unit
  | [] => return
  | ⟨name, shape⟩ :: rest =>
    match Value.fieldIn? name values with
    | none => .fail path (.missingField name)
    | some value => do
      shape.appendAt s value (Path.child path name)
      appendFields s path values rest

/-- Appends the variant with a tag: the tag byte, then the payload. -/
def appendVariant (s : Selections) (path : String) (tag : UInt8) (payload : Option Value) :
    List (Variant Shape) → Appending Unit
  | [] => .fail path (.unknownVariant (.tag tag.toNat))
  | ⟨name, other, declared⟩ :: rest =>
    if other = tag then do
      Appending.push [other]
      match declared, payload with
      | some shape, some value => shape.appendAt s value (Path.child path name)
      | none, none => return
      | some _, none => .fail path (.invalidValue (.needsPayload name))
      | none, some _ => .fail path (.invalidValue (.carriesNoPayload name))
    else appendVariant s path tag payload rest

/-- Appends a value as the member with a name. -/
def appendMember (s : Selections) (path name : String) (value : Value) :
    List (Named Shape) → Appending Unit
  | [] => .fail path (.unknownVariant (.name name))
  | ⟨other, shape⟩ :: rest =>
    if other = name then shape.appendAt s value (Path.child path other)
    else appendMember s path name value rest

end

/-- Appends the encoding of a value to a buffer: the buffer afterwards, and the error if there was
one. -/
def encodeInto (shape : Shape) (value : Value) (s : Selections) (buffer : Bytes) :
    Bytes × Option CodecError :=
  match shape.appendAt s value Path.root buffer with
  | .ok _ after => (after, none)
  | .error error after => (after, some error)

end Shape

end WireParity
