import WireParity.Shape.Basic
import WireParity.Shape.Path

/-!
# What can be wrong with a value, its bytes or its shape

Every error names the path of the part that is wrong and the cause. Causes fall into ten kinds,
which reports count by.
-/

namespace WireParity

/-- How a variant was asked for. -/
inductive VariantRef
  | name (name : String)
  | tag (tag : Nat)
deriving Repr, DecidableEq

/-- The text of a reference in messages. -/
def VariantRef.text : VariantRef → String
  | .name n => s!"'{n}'"
  | .tag t => s!"tag {t}"

/-- A reference picks out the variant with its name or tag. -/
def VariantRef.selects (ref : VariantRef) (name : String) (tag : UInt8) : Bool :=
  match ref with
  | .name n => name == n
  | .tag t => tag.toNat == t

/-- The kinds of error. -/
inductive ErrorKind
  | unresolvedVariant
  | unknownField
  | arityMismatch
  | missingField
  | unknownVariant
  | missingVariantContext
  | truncatedInput
  | typeMismatch
  | invalidDescriptor
  | invalidValue
deriving Repr, DecidableEq

namespace ErrorKind

/-- Every kind, in order of declaration. -/
def all : List ErrorKind :=
  [unresolvedVariant, unknownField, arityMismatch, missingField, unknownVariant,
   missingVariantContext, truncatedInput, typeMismatch, invalidDescriptor, invalidValue]

/-- The name under which a kind is reported. -/
def name : ErrorKind → String
  | unresolvedVariant => "unresolved-variant"
  | unknownField => "unknown-field"
  | arityMismatch => "arity-mismatch"
  | missingField => "missing-field"
  | unknownVariant => "unknown-variant"
  | missingVariantContext => "missing-variant-context"
  | truncatedInput => "truncated-input"
  | typeMismatch => "type-mismatch"
  | invalidDescriptor => "invalid-descriptor"
  | invalidValue => "invalid-value"

end ErrorKind

/-- What makes a shape unusable. -/
inductive ShapeFault
  | sizeOverflow
  | duplicateField (name : String)
  | enumWithoutVariants
  | unionWithoutVariants
  | duplicateVariant (name : String)
  | duplicateTag (tag : UInt8)
deriving Repr, DecidableEq

/-- The wording of a shape's fault. -/
def ShapeFault.message : ShapeFault → String
  | sizeOverflow => "encoded size overflows usize"
  | duplicateField name => s!"duplicate field '{name}'"
  | enumWithoutVariants => "enum has no variants"
  | unionWithoutVariants => "union has no variants"
  | duplicateVariant name => s!"duplicate variant '{name}'"
  | duplicateTag tag => s!"tag {tag} used by more than one variant"

/-- What makes a value unusable though its form is right. -/
inductive ValueFault
  | needsPayload (variant : String)
  | carriesNoPayload (variant : String)
  | notInteger (number : String)
  | notHexInteger (text : String)
  | notFloat (text : String)
  | outOfRange (number : Int) (kind : ScalarKind)
  | tagNotByte (json : String)
deriving Repr, DecidableEq

/-- The wording of a value's fault. -/
def ValueFault.message : ValueFault → String
  | needsPayload variant => s!"variant {variant} needs a payload"
  | carriesNoPayload variant => s!"variant {variant} carries no payload"
  | notInteger number => s!"{number} is not an integer"
  | notHexInteger text => s!"'{text}' is not a hex integer"
  | notFloat text => s!"'{text}' is not a float"
  | outOfRange number kind => s!"{number} out of range for {kind.name}"
  | tagNotByte json => s!"tag {json} is not a byte"

/-- Why a part of a value could not be sized, encoded, decoded or read. -/
inductive Cause
  | unresolvedVariant
  | unknownField (field : String)
  | arityMismatch (expected actual : Nat)
  | missingField (field : String)
  | unknownVariant (variant : VariantRef)
  | missingVariantContext
  | truncatedInput (needed available : Nat)
  | typeMismatch (expected found : String)
  | invalidDescriptor (fault : ShapeFault)
  | invalidValue (fault : ValueFault)
deriving Repr, DecidableEq

namespace Cause

/-- The kind of a cause. -/
def kind : Cause → ErrorKind
  | unresolvedVariant => .unresolvedVariant
  | unknownField _ => .unknownField
  | arityMismatch _ _ => .arityMismatch
  | missingField _ => .missingField
  | unknownVariant _ => .unknownVariant
  | missingVariantContext => .missingVariantContext
  | truncatedInput _ _ => .truncatedInput
  | typeMismatch _ _ => .typeMismatch
  | invalidDescriptor _ => .invalidDescriptor
  | invalidValue _ => .invalidValue

/-- The wording of a cause. -/
def message : Cause → String
  | unresolvedVariant =>
    "enum/union size depends on an active variant that was not supplied"
  | unknownField field => s!"no field named '{field}'"
  | arityMismatch expected actual => s!"expected {expected} elements, got {actual}"
  | missingField field => s!"declared field '{field}' has no value"
  | unknownVariant variant => s!"variant {variant.text} is not declared"
  | missingVariantContext => "union encoding needs an active variant"
  | truncatedInput needed available => s!"need {needed} bytes, only {available} available"
  | typeMismatch expected found => s!"expected {expected}, found {found}"
  | invalidDescriptor fault => "invalid descriptor: " ++ fault.message
  | invalidValue fault => "invalid value: " ++ fault.message

end Cause

/-- An error at a path. -/
structure CodecError where
  path : String
  cause : Cause
deriving Repr, DecidableEq

namespace CodecError

/-- The kind of an error. -/
def kind (e : CodecError) : ErrorKind := e.cause.kind

/-- The wording of an error: where, then why. -/
def message (e : CodecError) : String := Path.shown e.path ++ ": " ++ e.cause.message

end CodecError

end WireParity
