import WireParity.CodecError
import WireParity.Json.Printer
import WireParity.Shape.Selections
import WireParity.Text.Parts
import WireParity.Value.Basic

/-!
# Values from JSON

JSON does not say which kind a number is of, so a shape drives the reading. Integers are numbers
or hexadecimal text, in two's complement for signed kinds; floats are numbers, words for what is
not finite, or hexadecimal text with their bits. Structs are objects with exactly the declared
fields. An enum is the name of a variant, or an object that names it or its tag and has the payload.
-/

namespace WireParity.Value

/-- The error of JSON whose kind is not the expected one. -/
def wrongKind (path expected : String) (json : Json) : CodecError :=
  ⟨path, .typeMismatch expected json.kind⟩

/-- The error of JSON of the right kind that denotes no value. -/
def unusable (path : String) (fault : ValueFault) : CodecError := ⟨path, .invalidValue fault⟩

/-- A 64-bit number in hexadecimal: `0x` or `0X`, then digits among which underscores do not
count. -/
def hexNumber? (text : String) : Option Nat :=
  match text.toList with
  | '0' :: 'x' :: digits | '0' :: 'X' :: digits =>
    Hex.numeralBelow? (Nat.pow 2 64) (digits.filter (· != '_'))
  | _ => none

/-- The integer that a pattern of `width` bytes stands for in two's complement: the pattern is moved
to the top of a 64-bit word and back again, with its top bit copied into all bits above it. A wider
pattern is left as it is, and out of range. -/
def signExtend (width bits : Nat) : Int :=
  let unused := 64 - 8 * width
  if 0 < unused ∧ bits >>> (64 - unused) ≠ 0 then bits
  else ((BitVec.ofNat 64 bits <<< unused).sshiftRight unused).toInt

/-- The integer that a hexadecimal pattern stands for: in a signed kind the top bit of the field is
the sign. -/
def patternInt (kind : ScalarKind) (bits : Nat) : Int :=
  if kind.isSigned then signExtend kind.width bits else bits

/-- The integer that JSON stands for in a kind. -/
def integerOf (kind : ScalarKind) (path : String) : Json → Except CodecError Int
  | .number (.int n) => .ok n
  | .number n => .error (unusable path (.notInteger n.text))
  | .string s =>
    match hexNumber? s with
    | some bits => .ok (patternInt kind bits)
    | none => .error (unusable path (.notHexInteger s))
  | json => .error (wrongKind path kind.name json)

/-- The bits that JSON stands for in a kind of floats. Numbers are rounded to the nearest. -/
def floatBitsOf (kind : ScalarKind) (path : String) : Json → Except CodecError Nat
  | .number (.int n) =>
    .ok (FloatFormat.convert .binary64 kind.format (FloatFormat.binary64.ofInt n))
  | .number (.float bits) => .ok (FloatFormat.convert .binary64 kind.format bits.toNat)
  | .string s =>
    let word := Text.lowercase s
    if word = "nan" then .ok kind.format.quietNaN
    else if word ∈ ["inf", "+inf", "infinity"] then .ok kind.format.infinity
    else if word ∈ ["-inf", "-infinity"] then .ok (kind.format.withSign true kind.format.infinity)
    else match hexNumber? s with
      | some bits =>
        if bits < kind.modulus then .ok bits
        else .error (unusable path (.outOfRange bits kind))
      | none => .error (unusable path (.notFloat s))
  | json => .error (wrongKind path kind.name json)

/-- The scalar of a kind that JSON stands for. -/
def scalarOfJson (kind : ScalarKind) (path : String) (json : Json) : Except CodecError Value :=
  if kind.isFloat then do
    let bits ← floatBitsOf kind path json
    return .scalar (Scalar.ofBits kind bits)
  else do
    let n ← integerOf kind path json
    match Scalar.ofInt? kind n with
    | some x => .ok (.scalar x)
    | none => .error (unusable path (.outOfRange n kind))

/-- Reads items from an index on. -/
def itemsOfJson (read : Json → Nat → Except CodecError Value) (index : Nat) :
    List Json → Except CodecError (List Value)
  | [] => .ok []
  | json :: rest => do
    let item ← read json index
    let items ← itemsOfJson read (index + 1) rest
    return item :: items

/-- Which variant JSON asks for: an object by `variant` or else by `tag`, a text by name. -/
def variantRefOf (path : String) : Json → Except CodecError VariantRef
  | .object members =>
    match Table.find? "variant" members with
    | some (.string name) => .ok (.name name)
    | some other => .error (wrongKind path "variant name" other)
    | none =>
      match Table.find? "tag" members with
      | some (.number (.int n)) =>
        if 0 ≤ n ∧ n < 256 then .ok (.tag n.toNat)
        else .error (unusable path (.tagNotByte (Json.int n).compact))
      | some other => .error (unusable path (.tagNotByte other.compact))
      | none => .error ⟨path, .missingField "variant"⟩
  | .string name => .ok (.name name)
  | json => .error (wrongKind path "enum" json)

/-- The keys that an enum's object may have. -/
def variantKeys : List String := ["variant", "tag", "payload"]

/-- The first key of an enum's object that means nothing. -/
def strayKey? : Json → Option String
  | .object members => (Table.keys members).find? fun key => !variantKeys.contains key
  | _ => none

/-- The payload that JSON gives. A null counts as none. -/
def payloadOf : Json → Option Json
  | .object members => (Table.find? "payload" members).filter fun json => !json.isNull
  | _ => none

end WireParity.Value

namespace WireParity.Shape

open WireParity.Value

mutual

/-- Reads the value at a path. -/
def valueAt (s : Selections) : Shape → Json → String → Except CodecError Value
  | .scalar kind, json, path => scalarOfJson kind path json
  | .array elem count, json, path =>
    match json with
    | .array items =>
      if items.length = count.toNat then do
        let values ←
          itemsOfJson (fun item index => elem.valueAt s item (Path.element path index)) 0 items
        return .array values
      else .error ⟨path, .arityMismatch count.toNat items.length⟩
    | _ => .error (wrongKind path "array" json)
  | .struct fields, json, path =>
    match json with
    | .object members =>
      match (Table.keys members).find? fun key => !fields.any fun f => f.name == key with
      | some key => .error ⟨path, .unknownField key⟩
      | none => do
        let values ← valueFields s path members fields
        return .struct values
    | _ => .error (wrongKind path "struct" json)
  | .enum variants, json, path => do
    let ref ← variantRefOf path json
    if !variants.any fun v => ref.selects v.name v.tag then
      .error ⟨path, .unknownVariant ref⟩
    else match strayKey? json with
      | some key => .error ⟨path, .unknownField key⟩
      | none => valueVariant s path ref (payloadOf json) variants
  | .union members, json, path =>
    match s.get? path with
    | none => .error ⟨path, .missingVariantContext⟩
    | some name => valueMember s path name json members

/-- Reads declared fields in order, each from the member of its name. -/
def valueFields (s : Selections) (path : String) (members : List (String × Json)) :
    List (Named Shape) → Except CodecError (List (Named Value))
  | [] => .ok []
  | ⟨name, shape⟩ :: rest =>
    match Table.find? name members with
    | none => .error ⟨path, .missingField name⟩
    | some json => do
      let value ← shape.valueAt s json (Path.child path name)
      let values ← valueFields s path members rest
      return ⟨name, value⟩ :: values

/-- Reads the payload of the variant that is referred to. -/
def valueVariant (s : Selections) (path : String) (ref : VariantRef) (payload : Option Json) :
    List (Variant Shape) → Except CodecError Value
  | [] => .error ⟨path, .unknownVariant ref⟩
  | ⟨name, tag, declared⟩ :: rest =>
    if ref.selects name tag then
      match declared, payload with
      | some shape, some json => do
        let value ← shape.valueAt s json (Path.child path name)
        return .enum tag (some value)
      | none, none => .ok (.enum tag none)
      | some _, none => .error ⟨path, .missingField "payload"⟩
      | none, some _ => .error (unusable path (.carriesNoPayload name))
    else valueVariant s path ref payload rest

/-- Reads a value as the member with a name. -/
def valueMember (s : Selections) (path name : String) (json : Json) :
    List (Named Shape) → Except CodecError Value
  | [] => .error ⟨path, .unknownVariant (.name name)⟩
  | ⟨other, shape⟩ :: rest =>
    if other = name then shape.valueAt s json (Path.child path other)
    else valueMember s path name json rest

end

/-- The value of a shape that JSON stands for. -/
def valueOfJson (shape : Shape) (json : Json) (s : Selections) : Except CodecError Value :=
  shape.valueAt s json Path.root

end WireParity.Shape
