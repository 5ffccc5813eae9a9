import WireParity.Shape.Basic

/-!
# Induction over shapes

Shapes sit inside lists of fields, variants and members. The principle here hands each part of a
composite its hypothesis by membership, so a property of shapes needs five cases and no recursion
of its own over the lists. It is the principle that `induction` uses for shapes from here on.
-/

namespace WireParity.Shape

private theorem sizeOf_item_lt {parts : List (Named Shape)} {part : Named Shape}
    (hpart : part ∈ parts) : sizeOf part.item < 1 + sizeOf parts := by
  have hsize := List.sizeOf_lt_of_mem hpart
  cases part with
  | mk name item =>
    rw [Named.mk.sizeOf_spec] at hsize
    change sizeOf item < _
    omega

private theorem sizeOf_payload_lt {variants : List (Variant Shape)} {variant : Variant Shape}
    {shape : Shape} (hvariant : variant ∈ variants) (hpayload : variant.payload = some shape) :
    sizeOf shape < 1 + sizeOf variants := by
  have hsize := List.sizeOf_lt_of_mem hvariant
  cases variant with
  | mk name tag payload =>
    subst hpayload
    rw [Variant.mk.sizeOf_spec, Option.some.sizeOf_spec] at hsize
    omega

/-- A property of shapes holds throughout if composites inherit it from their parts. -/
@[elab_as_elim, induction_eliminator]
theorem byParts {motive : Shape → Prop}
    (scalar : ∀ kind, motive (.scalar kind))
    (array : ∀ elem count, motive elem → motive (.array elem count))
    (struct : ∀ fields, (∀ field ∈ fields, motive field.item) → motive (.struct fields))
    (enum : ∀ variants, (∀ variant ∈ variants, ∀ shape, variant.payload = some shape →
      motive shape) → motive (.enum variants))
    (union : ∀ members, (∀ member ∈ members, motive member.item) → motive (.union members))
    (shape : Shape) : motive shape :=
  match shape with
  | .scalar kind => scalar kind
  | .array elem count => array elem count (byParts scalar array struct enum union elem)
  | .struct fields => struct fields fun field hfield =>
      have := sizeOf_item_lt hfield
      byParts scalar array struct enum union field.item
  | .enum variants => enum variants fun variant hvariant shape hpayload =>
      have := sizeOf_payload_lt hvariant hpayload
      byParts scalar array struct enum union shape
  | .union members => union members fun member hmember =>
      have := sizeOf_item_lt hmember
      byParts scalar array struct enum union member.item
termination_by sizeOf shape

end WireParity.Shape
