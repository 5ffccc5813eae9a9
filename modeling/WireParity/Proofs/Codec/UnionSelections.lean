import WireParity.Codec.ToJson
import WireParity.Proofs.Codec.Decoding
import WireParity.Proofs.Codec.Encoding
import WireParity.Proofs.Codec.JsonReading
import WireParity.Proofs.Shape.Positions

/-!
# What the codec takes from selections

Selections serve two ends: the codec needs them at unions, and sizes need them at enums too. The
codec looks at nothing else. What it does at a shape follows from what it does at the parts and, at a
union, from the name that is selected there, so selections that agree at all unions cannot be told
apart by it, in results or in errors.

An array that is encoded, decoded or read has as many elements as its shape counts. One that is only
shown may have more, and then unions beyond the count are looked at as well.
-/

namespace WireParity.Samples

/-- An enum that may carry a union. -/
def envelope : Shape :=
  .enum [⟨"None", 0, none⟩, ⟨"Raw", 1, some (.union [field "wide" .u64, field "narrow" .u8])⟩]

/-- The member that an envelope carries. -/
def rawSelections : Selections := .ofList [("Raw", "narrow")]

/-- The same member, and the variant that the size of an envelope depends on. -/
def rawChoices : Selections := .ofList [("", "Raw"), ("Raw", "narrow")]

end WireParity.Samples

namespace WireParity.Shape

variable {α : Type} {reach : Reach} {s s' : Selections} {shape : Shape} {path : String}

/-- Two selections say the same at every union in a shape at a path. -/
def AgreeAtUnions (reach : Reach) (s s' : Selections) (shape : Shape) (path : String) : Prop :=
  ∀ position node members, shape.locate? reach path position = some (node, .union members) →
    s.get? node = s'.get? node

/-- Selections that agree in a shape agree in its parts. -/
theorem AgreeAtUnions.of_part (h : AgreeAtUnions reach s s' shape path) {index : Nat} {node : String}
    {part : Shape} (hpart : shape.partAt? reach path index = some (node, part)) :
    AgreeAtUnions reach s s' part node :=
  fun position node' members hlocate =>
    h (index :: position) node' members (locate?_cons_eq_some.mpr ⟨node, part, hpart, hlocate⟩)

section Parts

/-- Two operations on shapes at paths do the same at each part of a shape. -/
def SameOnParts (reach : Reach) (f g : Shape → String → α) (shape : Shape) (path : String) : Prop :=
  ∀ index node part, shape.partAt? reach path index = some (node, part) → f part node = g part node

variable {f g : Shape → String → α}

/-- They do the same at elements. -/
theorem SameOnParts.element {elem : Shape} {count : UInt64}
    (h : SameOnParts reach f g (.array elem count) path) {index : Nat}
    (hindex : reach.covers count index = true) :
    f elem (Path.element path index) = g elem (Path.element path index) :=
  h index _ _ (if_pos hindex)

/-- They do the same at fields. -/
theorem SameOnParts.field {fields : List (Named Shape)}
    (h : SameOnParts reach f g (.struct fields) path) {field : Named Shape}
    (hfield : field ∈ fields) :
    f field.item (Path.child path field.name) = g field.item (Path.child path field.name) := by
  obtain ⟨index, hindex⟩ := List.getElem?_of_mem hfield
  exact h index _ _ (by rw [partAt?, hindex, Option.map_some])

/-- They do the same at payloads. -/
theorem SameOnParts.payload {variants : List (Variant Shape)}
    (h : SameOnParts reach f g (.enum variants) path) {variant : Variant Shape}
    (hvariant : variant ∈ variants) {part : Shape} (hpayload : variant.payload = some part) :
    f part (Path.child path variant.name) = g part (Path.child path variant.name) := by
  obtain ⟨index, hindex⟩ := List.getElem?_of_mem hvariant
  exact h index _ _ (by rw [partAt?, hindex, Option.bind_some, hpayload, Option.map_some])

/-- They do the same at members. -/
theorem SameOnParts.member {members : List (Named Shape)}
    (h : SameOnParts reach f g (.union members) path) {member : Named Shape}
    (hmember : member ∈ members) :
    f member.item (Path.child path member.name) = g member.item (Path.child path member.name) := by
  obtain ⟨index, hindex⟩ := List.getElem?_of_mem hmember
  exact h index _ _ (by rw [partAt?, hindex, Option.map_some])

/-- What is done under selections is settled by the unions if, at every shape, it is settled by the
parts and by the name that is selected for a union. -/
theorem eq_of_agreeAtUnions
    (hparts : ∀ shape path, SameOnParts reach f g shape path →
      (∀ members, shape = .union members → s.get? path = s'.get? path) →
      f shape path = g shape path)
    (h : AgreeAtUnions reach s s' shape path) : f shape path = g shape path := by
  induction shape using byPartAt reach generalizing path with
  | inherit shape ih =>
    refine hparts shape path (fun index node part hpart => ?_) ?_
    · exact ih path index node part hpart (h.of_part hpart)
    · rintro members rfl
      exact h [] path members rfl

end Parts

section Encoding

/-- Items are written alike if the one at each index is. -/
theorem emitItems_congr {emit emit' : Value → Nat → Emission} {index : Nat} {items : List Value}
    (hsame : ∀ item other, other < index + items.length → emit item other = emit' item other) :
    emitItems emit index items = emitItems emit' index items := by
  induction items generalizing index with
  | nil => rfl
  | cons item items ih =>
    rw [List.length_cons] at hsame
    rw [emitItems, emitItems, hsame item index (by omega), ih]
    exact fun item other hother => hsame item other (by omega)

/-- Fields are written alike if each field is. -/
theorem encodeFields_congr {values : List (Named Value)} {fields : List (Named Shape)}
    (hsame : ∀ field ∈ fields, ∀ value,
      field.item.encodeAt s value (Path.child path field.name) =
        field.item.encodeAt s' value (Path.child path field.name)) :
    encodeFields s path values fields = encodeFields s' path values fields := by
  induction fields with
  | nil => rfl
  | cons field fields ih =>
    obtain ⟨name, shape⟩ := field
    rw [List.forall_mem_cons] at hsame
    rw [encodeFields, encodeFields, ih hsame.2]
    cases Value.fieldIn? name values with
    | none => rfl
    | some value => exact congrArg (Emission.andThen · _) (hsame.1 value)

/-- A shape is written alike if its parts are, and the selection for a union is the same. -/
theorem encodeAt_eq_of_parts
    (h : SameOnParts .counted (fun shape path value => shape.encodeAt s value path)
      (fun shape path value => shape.encodeAt s' value path) shape path)
    (hunion : ∀ members, shape = .union members → s.get? path = s'.get? path) :
    (fun value => shape.encodeAt s value path) = fun value => shape.encodeAt s' value path := by
  funext value
  cases shape with
  | scalar kind => rfl
  | array elem count =>
    cases value with
    | array items =>
      rw [encodeAt, encodeAt]
      by_cases hlength : items.length = count.toNat
      · rw [if_pos hlength, if_pos hlength]
        refine emitItems_congr fun item index hindex => congrFun (h.element ?_) item
        rw [Nat.zero_add, hlength] at hindex
        exact decide_eq_true hindex
      · rw [if_neg hlength, if_neg hlength]
    | _ => rfl
  | struct fields =>
    cases value with
    | struct values =>
      rw [encodeAt, encodeAt]
      rw [encodeFields_congr fun field hfield value => congrFun (h.field hfield) value]
    | _ => rfl
  | enum variants =>
    cases value with
    | enum tag payload =>
      rw [encodeAt, encodeAt, encodeVariant_eq, encodeVariant_eq]
      cases hvariant : (Shape.enum variants).variantTagged? tag with
      | none => rfl
      | some variant =>
        have hmem := mem_of_variantTagged? hvariant
        obtain ⟨name, other, declared⟩ := variant
        cases declared with
        | none => cases payload <;> rfl
        | some part =>
          cases payload with
          | none => rfl
          | some payload =>
            have hpayload := congrFun (h.payload hmem rfl) payload
            exact congrArg (fun rest => (Emission.write [other]).andThen fun _ => rest) hpayload
    | _ => rfl
  | union members =>
    rw [encodeAt, encodeAt, hunion members rfl]
    cases s'.get? path with
    | none => rfl
    | some name =>
      simp only [encodeMember_eq]
      cases hmember : (Shape.union members).memberNamed? name with
      | none => rfl
      | some member => exact congrFun (h.member (mem_of_memberNamed? hmember)) value

end Encoding

section Decoding

/-- Items are read alike if the one at each index is. -/
theorem readItems_congr {read read' : Nat → Bytes → Except CodecError (Value × Bytes)}
    {count index : Nat} (hsame : ∀ other, other < index + count → read other = read' other)
    (bytes : Bytes) : readItems read count index bytes = readItems read' count index bytes := by
  induction count generalizing index bytes with
  | zero => rfl
  | succ count ih =>
    rw [readItems, readItems, hsame index (by omega)]
    have hrest : ∀ other, other < index + 1 + count → read other = read' other :=
      fun other hother => hsame other (by omega)
    simp only [ih hrest]

/-- Fields are read alike if each field is. -/
theorem decodeFields_congr {fields : List (Named Shape)}
    (hsame : ∀ field ∈ fields, field.item.decodeAt s (Path.child path field.name) =
      field.item.decodeAt s' (Path.child path field.name)) (bytes : Bytes) :
    decodeFields s path fields bytes = decodeFields s' path fields bytes := by
  induction fields generalizing bytes with
  | nil => rfl
  | cons field fields ih =>
    obtain ⟨name, shape⟩ := field
    rw [List.forall_mem_cons] at hsame
    rw [decodeFields, decodeFields, hsame.1]
    simp only [ih hsame.2]

/-- A shape is read alike if its parts are, and the selection for a union is the same. -/
theorem decodeAt_eq_of_parts
    (h : SameOnParts .counted (fun shape path => shape.decodeAt s path)
      (fun shape path => shape.decodeAt s' path) shape path)
    (hunion : ∀ members, shape = .union members → s.get? path = s'.get? path) :
    shape.decodeAt s path = shape.decodeAt s' path := by
  funext bytes
  cases shape with
  | scalar kind => rfl
  | array elem count =>
    rw [decodeAt, decodeAt, readItems_congr fun index hindex => h.element ?_]
    rw [Nat.zero_add] at hindex
    exact decide_eq_true hindex
  | struct fields =>
    rw [decodeAt, decodeAt, decodeFields_congr fun field hfield => h.field hfield]
  | enum variants =>
    cases bytes with
    | nil => rfl
    | cons tag bytes =>
      rw [decodeAt, decodeAt, decodeVariant_eq, decodeVariant_eq]
      cases hvariant : (Shape.enum variants).variantTagged? tag with
      | none => rfl
      | some variant =>
        have hmem := mem_of_variantTagged? hvariant
        obtain ⟨name, other, declared⟩ := variant
        cases declared with
        | none => rfl
        | some part =>
          have hpayload := h.payload hmem rfl
          simp only [Option.elim_some, decodePayload, hpayload]
  | union members =>
    rw [decodeAt, decodeAt, hunion members rfl]
    cases s'.get? path with
    | none => rfl
    | some name =>
      simp only [decodeMember_eq]
      cases hmember : (Shape.union members).memberNamed? name with
      | none => rfl
      | some member => exact congrFun (h.member (mem_of_memberNamed? hmember)) bytes

end Decoding

section JsonReading

open WireParity.Value

/-- Items of JSON are read alike if the one at each index is. -/
theorem itemsOfJson_congr {read read' : Json → Nat → Except CodecError Value} {index : Nat}
    {items : List Json}
    (hsame : ∀ item other, other < index + items.length → read item other = read' item other) :
    itemsOfJson read index items = itemsOfJson read' index items := by
  induction items generalizing index with
  | nil => rfl
  | cons item items ih =>
    rw [List.length_cons] at hsame
    rw [itemsOfJson, itemsOfJson, hsame item index (by omega), ih]
    exact fun item other hother => hsame item other (by omega)

/-- Fields are read from JSON alike if each field is. -/
theorem valueFields_congr {members : List (String × Json)} {fields : List (Named Shape)}
    (hsame : ∀ field ∈ fields, ∀ json, field.item.valueAt s json (Path.child path field.name) =
      field.item.valueAt s' json (Path.child path field.name)) :
    valueFields s path members fields = valueFields s' path members fields := by
  induction fields with
  | nil => rfl
  | cons field fields ih =>
    obtain ⟨name, shape⟩ := field
    rw [List.forall_mem_cons] at hsame
    rw [valueFields, valueFields, ih hsame.2]
    cases Table.find? name members with
    | none => rfl
    | some json => simp only [hsame.1 json]

/-- A variant is read from JSON alike if each payload is. -/
theorem valueVariant_congr {ref : VariantRef} {payload : Option Json}
    {variants : List (Variant Shape)}
    (hsame : ∀ variant ∈ variants, ∀ part, variant.payload = some part → ∀ json,
      part.valueAt s json (Path.child path variant.name) =
        part.valueAt s' json (Path.child path variant.name)) :
    valueVariant s path ref payload variants = valueVariant s' path ref payload variants := by
  induction variants with
  | nil => rfl
  | cons variant variants ih =>
    obtain ⟨name, tag, declared⟩ := variant
    rw [List.forall_mem_cons] at hsame
    rw [valueVariant.eq_def, valueVariant.eq_def]
    simp only [ih hsame.2]
    cases declared with
    | none => cases payload <;> rfl
    | some part =>
      cases payload with
      | none => rfl
      | some json => simp only [hsame.1 part rfl json]

/-- A shape is read from JSON alike if its parts are, and the selection for a union is the same. -/
theorem valueAt_eq_of_parts
    (h : SameOnParts .counted (fun shape path json => shape.valueAt s json path)
      (fun shape path json => shape.valueAt s' json path) shape path)
    (hunion : ∀ members, shape = .union members → s.get? path = s'.get? path) :
    (fun json => shape.valueAt s json path) = fun json => shape.valueAt s' json path := by
  funext json
  cases shape with
  | scalar kind => rfl
  | array elem count =>
    cases json with
    | array items =>
      rw [valueAt, valueAt]
      by_cases hlength : items.length = count.toNat
      · rw [if_pos hlength, if_pos hlength,
          itemsOfJson_congr fun item index hindex => congrFun (h.element ?_) item]
        rw [Nat.zero_add, hlength] at hindex
        exact decide_eq_true hindex
      · rw [if_neg hlength, if_neg hlength]
    | _ => rfl
  | struct fields =>
    cases json with
    | object members =>
      rw [valueAt, valueAt,
        valueFields_congr fun field hfield json => congrFun (h.field hfield) json]
    | _ => rfl
  | enum variants =>
    rw [valueAt, valueAt]
    simp only [valueVariant_congr fun variant hvariant part hpayload json =>
      congrFun (h.payload hvariant hpayload) json]
  | union members =>
    rw [valueAt, valueAt, hunion members rfl]
    cases s'.get? path with
    | none => rfl
    | some name =>
      simp only [valueMember_eq]
      cases hmember : (Shape.union members).memberNamed? name with
      | none => rfl
      | some member => exact congrFun (h.member (mem_of_memberNamed? hmember)) json

end JsonReading

section JsonWriting

/-- Items are shown alike if the one at each index is. -/
theorem jsonItems_congr {write write' : Value → Nat → Json} {index : Nat} {items : List Value}
    (hsame : ∀ item other, write item other = write' item other) :
    jsonItems write index items = jsonItems write' index items := by
  induction items generalizing index with
  | nil => rfl
  | cons item items ih => rw [jsonItems, jsonItems, hsame, ih]

/-- A field is shown alike if what is declared under its name is. -/
theorem jsonField_congr {field : Named Value} {fields : List (Named Shape)}
    (hsame : ∀ known ∈ fields, known.item.jsonAt s field.item (Path.child path known.name) =
      known.item.jsonAt s' field.item (Path.child path known.name)) :
    jsonField s path field fields = jsonField s' path field fields := by
  induction fields with
  | nil => rfl
  | cons known fields ih =>
    obtain ⟨name, shape⟩ := known
    rw [List.forall_mem_cons] at hsame
    rw [jsonField, jsonField, ih hsame.2, hsame.1]

/-- A variant is shown alike if each payload is. -/
theorem jsonVariant_congr {tag : UInt8} {payload : Option Value} {variants : List (Variant Shape)}
    (hsame : ∀ variant ∈ variants, ∀ part, variant.payload = some part → ∀ value,
      part.jsonAt s value (Path.child path variant.name) =
        part.jsonAt s' value (Path.child path variant.name)) :
    jsonVariant s path tag payload variants = jsonVariant s' path tag payload variants := by
  induction variants with
  | nil => rfl
  | cons variant variants ih =>
    obtain ⟨name, other, declared⟩ := variant
    rw [List.forall_mem_cons] at hsame
    rw [jsonVariant.eq_def, jsonVariant.eq_def]
    simp only [ih hsame.2]
    cases declared with
    | none => rfl
    | some part =>
      cases payload with
      | none => rfl
      | some value => simp only [hsame.1 part rfl value]

/-- A member is shown alike if each member is. -/
theorem jsonMember_congr {name : String} {value : Value} {members : List (Named Shape)}
    (hsame : ∀ member ∈ members, member.item.jsonAt s value (Path.child path member.name) =
      member.item.jsonAt s' value (Path.child path member.name)) :
    jsonMember s path name value members = jsonMember s' path name value members := by
  induction members with
  | nil => rfl
  | cons member members ih =>
    obtain ⟨other, shape⟩ := member
    rw [List.forall_mem_cons] at hsame
    rw [jsonMember, jsonMember, ih hsame.2, hsame.1]

/-- A shape is shown alike if its parts are, those beyond the count of an array among them, and the
selection for a union is the same. -/
theorem jsonAt_eq_of_parts
    (h : SameOnParts .any (fun shape path value => shape.jsonAt s value path)
      (fun shape path value => shape.jsonAt s' value path) shape path)
    (hunion : ∀ members, shape = .union members → s.get? path = s'.get? path) :
    (fun value => shape.jsonAt s value path) = fun value => shape.jsonAt s' value path := by
  funext value
  cases shape with
  | scalar kind => rfl
  | array elem count =>
    cases value with
    | array items =>
      rw [jsonAt, jsonAt, jsonItems_congr fun item index => congrFun (h.element rfl) item]
    | _ => rfl
  | struct fields =>
    cases value with
    | struct values =>
      simp only [jsonAt, jsonField_congr fun known hknown => congrFun (h.field hknown) _]
    | _ => rfl
  | enum variants =>
    cases value with
    | enum tag payload =>
      rw [jsonAt, jsonAt, jsonVariant_congr fun variant hvariant part hpayload value =>
        congrFun (h.payload hvariant hpayload) value]
    | _ => rfl
  | union members =>
    rw [jsonAt, jsonAt, hunion members rfl]
    cases s'.get? path with
    | none => rfl
    | some name => exact jsonMember_congr fun member hmember => congrFun (h.member hmember) value

end JsonWriting

/-- Positions below the counts of arrays are positions. -/
theorem locate?_any {position : List Nat} {found : String × Shape}
    (hlocate : shape.locate? .counted path position = some found) :
    shape.locate? .any path position = some found := by
  induction position generalizing shape path with
  | nil => exact hlocate
  | cons index position ih =>
    obtain ⟨node, part, hpart, hrest⟩ := locate?_cons_eq_some.mp hlocate
    refine locate?_cons_eq_some.mpr ⟨node, part, ?_, ih hrest⟩
    cases shape with
    | array elem count =>
      rw [partAt?, Option.ite_none_right_eq_some] at hpart
      have hcovers : Reach.any.covers count index = true := rfl
      rw [partAt?, if_pos hcovers]
      exact hpart.2
    | _ => exact hpart

/-- Selections that agree at all unions do so at those below the counts of arrays. -/
theorem AgreeAtUnions.counted (h : AgreeAtUnions .any s s' shape path) :
    AgreeAtUnions .counted s s' shape path :=
  fun position node members hlocate => h position node members (locate?_any hlocate)

/-- Under two selections, values of a shape are encoded, decoded and read from JSON alike, and are
refused with the same errors. -/
structure CodedAlike (s s' : Selections) (shape : Shape) : Prop where
  encode : ∀ value, shape.encode value s = shape.encode value s'
  decodeFront : ∀ bytes, shape.decodeFront bytes s = shape.decodeFront bytes s'
  valueOfJson : ∀ json, shape.valueOfJson json s = shape.valueOfJson json s'

/-- Selections that agree at the unions below the counts of arrays make no difference to the
codec. -/
theorem codedAlike (h : AgreeAtUnions .counted s s' shape Path.root) : CodedAlike s s' shape where
  encode value := by
    have hsame := congrFun (eq_of_agreeAtUnions (fun _ _ => encodeAt_eq_of_parts) h) value
    exact congrArg Emission.toExcept hsame
  decodeFront bytes := by
    have hsame := congrFun (eq_of_agreeAtUnions (fun _ _ => decodeAt_eq_of_parts) h) bytes
    rw [Shape.decodeFront, Shape.decodeFront, hsame]
  valueOfJson json := congrFun (eq_of_agreeAtUnions (fun _ _ => valueAt_eq_of_parts) h) json

/-- Selections that agree at all unions make no difference to how values are shown. -/
theorem jsonOfValue_eq (h : AgreeAtUnions .any s s' shape Path.root) (value : Value) :
    shape.jsonOfValue value s = shape.jsonOfValue value s' :=
  congrFun (eq_of_agreeAtUnions (fun _ _ => jsonAt_eq_of_parts) h) value

/-- Only what is selected at unions matters to the codec. Selections that agree at all unions in a
shape have the same results and errors for every value, every bytes and every JSON; where nothing is
shown, those below the counts of arrays are enough. So a selection at a path where no union lies, be
it that of an enum or of nothing at all, is not looked at. -/
theorem codedAlike_of_agreeAtUnions (shape : Shape) (s s' : Selections) :
    (AgreeAtUnions .any s s' shape Path.root →
      CodedAlike s s' shape ∧ ∀ value, shape.jsonOfValue value s = shape.jsonOfValue value s') ∧
    (AgreeAtUnions .counted s s' shape Path.root → CodedAlike s s' shape) ∧
    ∀ node name, (∀ position members,
        shape.locate? .any Path.root position ≠ some (node, .union members)) →
      CodedAlike s (s.insert node name) shape ∧
        ∀ value, shape.jsonOfValue value s = shape.jsonOfValue value (s.insert node name) := by
  refine ⟨fun h => ⟨codedAlike h.counted, jsonOfValue_eq h⟩, codedAlike, fun node name hnone => ?_⟩
  have h : AgreeAtUnions .any s (s.insert node name) shape Path.root := by
    intro position other members hlocate
    have hne : other ≠ node := by
      rintro rfl
      exact hnone position members hlocate
    exact (Table.find?_insert_of_ne hne name s.entries).symm
  exact ⟨codedAlike h.counted, jsonOfValue_eq h⟩

/-- The only union in an envelope is what it carries. -/
theorem eq_raw_of_locate?_envelope {position : List Nat} {node : String}
    {members : List (Named Shape)}
    (hlocate : Samples.envelope.locate? reach Path.root position = some (node, .union members)) :
    node = "Raw" := by
  cases position with
  | nil => cases hlocate
  | cons index position =>
    obtain ⟨_, part, hpart, hrest⟩ := locate?_cons_eq_some.mp hlocate
    match index, hpart with
    | 1, rfl =>
      cases position with
      | nil =>
        cases hrest
        rfl
      | cons index position =>
        obtain ⟨_, member, hmember, hrest⟩ := locate?_cons_eq_some.mp hrest
        match index, hmember with
        | 0, rfl | 1, rfl => cases locate?_scalar_eq_some hrest

/-- Naming the variant of an envelope, or selecting something in a member that is no union, changes
nothing for the codec. -/
theorem codedAlike_of_agreeAtUnions_envelope :
    (AgreeAtUnions .any Samples.rawSelections Samples.rawChoices Samples.envelope Path.root ∧
      Samples.rawSelections.get? Path.root ≠ Samples.rawChoices.get? Path.root ∧
      CodedAlike Samples.rawSelections Samples.rawChoices Samples.envelope ∧
      ∀ value, Samples.envelope.jsonOfValue value Samples.rawSelections =
        Samples.envelope.jsonOfValue value Samples.rawChoices) ∧
    (∀ position members, Samples.envelope.locate? .any Path.root position ≠
        some ("Raw.narrow", .union members)) ∧
      CodedAlike Samples.rawSelections (Samples.rawSelections.insert "Raw.narrow" "None")
        Samples.envelope := by
  have hagree : AgreeAtUnions .any Samples.rawSelections Samples.rawChoices Samples.envelope
      Path.root := by
    intro position node members hlocate
    rw [eq_raw_of_locate?_envelope hlocate]
    decide
  have hnone : ∀ position members, Samples.envelope.locate? .any Path.root position ≠
      some ("Raw.narrow", .union members) := by
    intro position members hlocate
    exact absurd (eq_raw_of_locate?_envelope hlocate) (by decide)
  obtain ⟨hany, _, hinsert⟩ :=
    codedAlike_of_agreeAtUnions Samples.envelope Samples.rawSelections Samples.rawChoices
  exact ⟨⟨hagree, by decide, hany hagree⟩, hnone, (hinsert "Raw.narrow" "None" hnone).1⟩

end WireParity.Shape
