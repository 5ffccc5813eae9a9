import WireParity.Codec.ToJson
import WireParity.Proofs.Json.Settling
import WireParity.Proofs.Shape.Induction
import WireParity.Proofs.Value.Induction

/-!
# The JSON of values is in order

Whatever a value is, and whether or not the shape fits it, the objects of its JSON have their
members in order of their keys.
-/

namespace WireParity

/-- A scalar is a number or a text. -/
theorem Scalar.ordered_toJson (x : Scalar) : x.toJson.Ordered := by
  unfold toJson
  by_cases hfloat : x.kind.isFloat = true
  · rw [if_pos hfloat]
    dsimp only
    split
    · exact .string _
    · split
      · exact .string _
      · exact .number _
  · rw [if_neg hfloat]
    exact .number _

namespace Value

/-- Items are in order if each is. -/
theorem ordered_itemsToJson {items : List Value} (hitems : ∀ item ∈ items, item.toJson.Ordered) :
    ∀ json ∈ itemsToJson items, json.Ordered := by
  induction items with
  | nil => exact List.forall_mem_nil _
  | cons item items ih =>
    rw [List.forall_mem_cons] at hitems
    rw [itemsToJson, List.forall_mem_cons]
    exact ⟨hitems.1, ih hitems.2⟩

/-- Fields are in order if each is. -/
theorem ordered_fieldsToJson {fields : List (Named Value)}
    (hfields : ∀ field ∈ fields, field.item.toJson.Ordered) :
    ∀ member ∈ fieldsToJson fields, member.2.Ordered := by
  induction fields with
  | nil => exact List.forall_mem_nil _
  | cons field fields ih =>
    obtain ⟨name, value⟩ := field
    rw [List.forall_mem_cons] at hfields
    rw [fieldsToJson, List.forall_mem_cons]
    exact ⟨hfields.1, ih hfields.2⟩

/-- The JSON of a value without a shape is in order. -/
theorem ordered_toJson (value : Value) : value.toJson.Ordered := by
  induction value with
  | scalar x =>
    rw [toJson]
    exact x.ordered_toJson
  | array items ih =>
    rw [toJson]
    exact .array (ordered_itemsToJson ih)
  | struct fields ih =>
    rw [toJson]
    exact Json.ordered_ofMembers (ordered_fieldsToJson ih)
  | bare tag =>
    rw [toJson]
    exact Json.ordered_ofMembers (List.forall_mem_singleton.mpr (.number _))
  | loaded tag payload ih =>
    rw [toJson]
    exact Json.ordered_ofMembers
      (List.forall_mem_cons.mpr ⟨ih, List.forall_mem_singleton.mpr (.number _)⟩)

end Value

namespace Shape

variable {s : Selections}

/-- Items are in order if each is, at any place. -/
theorem ordered_jsonItems {write : Value → Nat → Json}
    (hwrite : ∀ item index, (write item index).Ordered) (index : Nat) (items : List Value) :
    ∀ json ∈ jsonItems write index items, json.Ordered := by
  induction items generalizing index with
  | nil => exact List.forall_mem_nil _
  | cons item items ih =>
    rw [jsonItems, List.forall_mem_cons]
    exact ⟨hwrite item index, ih (index + 1)⟩

/-- A field is in order if all shapes write so. -/
theorem ordered_jsonField {fields : List (Named Shape)}
    (hfields : ∀ field ∈ fields, ∀ value path, (field.item.jsonAt s value path).Ordered)
    (path : String) (value : Named Value) : (jsonField s path value fields).Ordered := by
  induction fields with
  | nil => exact value.item.ordered_toJson
  | cons field fields ih =>
    obtain ⟨name, shape⟩ := field
    rw [List.forall_mem_cons] at hfields
    rw [jsonField]
    split
    · exact hfields.1 _ _
    · exact ih hfields.2

/-- A member is in order if all shapes write so. -/
theorem ordered_jsonMember {members : List (Named Shape)}
    (hmembers : ∀ member ∈ members, ∀ value path, (member.item.jsonAt s value path).Ordered)
    (path name : String) (value : Value) : (jsonMember s path name value members).Ordered := by
  induction members with
  | nil => exact value.ordered_toJson
  | cons member members ih =>
    obtain ⟨other, shape⟩ := member
    rw [List.forall_mem_cons] at hmembers
    rw [jsonMember]
    split
    · exact hmembers.1 _ _
    · exact ih hmembers.2

/-- An enum is in order if all shapes of payloads write so. -/
theorem ordered_jsonVariant {variants : List (Variant Shape)}
    (hvariants : ∀ variant ∈ variants, ∀ shape, variant.payload = some shape →
      ∀ value path, (shape.jsonAt s value path).Ordered)
    (path : String) (tag : UInt8) (payload : Option Value) :
    (jsonVariant s path tag payload variants).Ordered := by
  induction variants with
  | nil => exact Value.ordered_toJson _
  | cons variant variants ih =>
    obtain ⟨name, other, declared⟩ := variant
    rw [List.forall_mem_cons] at hvariants
    rw [jsonVariant.eq_def]
    simp only
    split
    · cases payload with
      | none => exact Json.ordered_ofMembers (List.forall_mem_singleton.mpr (.string _))
      | some value =>
        refine Json.ordered_ofMembers
          (List.forall_mem_cons.mpr ⟨?_, List.forall_mem_singleton.mpr (.string _)⟩)
        cases declared with
        | none => exact value.ordered_toJson
        | some shape => exact hvariants.1 shape rfl _ _
    · exact ih hvariants.2

/-- The JSON of a value is in order, whatever its shape. -/
theorem ordered_jsonAt (shape : Shape) (value : Value) (path : String) :
    (shape.jsonAt s value path).Ordered := by
  induction shape generalizing value path with
  | scalar kind =>
    rw [jsonAt]
    exact value.ordered_toJson
  | array elem count ih =>
    rw [jsonAt.eq_def]
    cases value with
    | array items => exact .array (ordered_jsonItems (fun item index => ih item _) 0 items)
    | _ => exact Value.ordered_toJson _
  | struct fields ih =>
    rw [jsonAt.eq_def]
    cases value with
    | struct values =>
      refine Json.ordered_ofMembers (List.forall_mem_map.mpr fun field _ => ?_)
      exact ordered_jsonField ih path field
    | _ => exact Value.ordered_toJson _
  | enum variants ih =>
    rw [jsonAt.eq_def]
    cases value with
    | enum tag payload => exact ordered_jsonVariant ih path tag payload
    | _ => exact Value.ordered_toJson _
  | union members ih =>
    rw [jsonAt.eq_def]
    simp only
    split
    · exact value.ordered_toJson
    · exact ordered_jsonMember ih path _ value

/-- The JSON of a whole value is in order. -/
theorem ordered_jsonOfValue (shape : Shape) (value : Value) (s : Selections) :
    (shape.jsonOfValue value s).Ordered :=
  shape.ordered_jsonAt value Path.root

end Shape

end WireParity
