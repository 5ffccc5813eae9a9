import WireParity.Value.Basic

/-!
# Induction over values

Values sit inside lists of elements, in named fields and behind tags. As for shapes, the principle
here hands each part of a composite its hypothesis by membership, and it is the principle that
`induction` uses for values from here on.
-/

namespace WireParity.Value

private theorem sizeOf_field_lt {fields : List (Named Value)} {field : Named Value}
    (hfield : field ∈ fields) : sizeOf field.item < 1 + sizeOf fields := by
  have hsize := List.sizeOf_lt_of_mem hfield
  cases field with
  | mk name item =>
    rw [Named.mk.sizeOf_spec] at hsize
    change sizeOf item < _
    omega

/-- A property of values holds throughout if composites inherit it from their parts. -/
@[elab_as_elim, induction_eliminator]
theorem byParts {motive : Value → Prop}
    (scalar : ∀ x, motive (.scalar x))
    (array : ∀ items, (∀ item ∈ items, motive item) → motive (.array items))
    (struct : ∀ fields, (∀ field ∈ fields, motive field.item) → motive (.struct fields))
    (bare : ∀ tag, motive (.enum tag none))
    (loaded : ∀ tag payload, motive payload → motive (.enum tag (some payload)))
    (value : Value) : motive value :=
  match value with
  | .scalar x => scalar x
  | .array items => array items fun item hitem =>
      have := List.sizeOf_lt_of_mem hitem
      byParts scalar array struct bare loaded item
  | .struct fields => struct fields fun field hfield =>
      have := sizeOf_field_lt hfield
      byParts scalar array struct bare loaded field.item
  | .enum tag none => bare tag
  | .enum tag (some payload) => loaded tag payload (byParts scalar array struct bare loaded payload)
termination_by sizeOf value

end WireParity.Value
