import WireParity.Codec.FromJson
import WireParity.Proofs.Outcome
import WireParity.Proofs.Shape.Lookup

/-!
# Values that were read from JSON

For each form of shape, an equivalence says which JSON is read and what the value is made of. The
many spellings of one enum meet in `variantRefOf`: whichever spelling refers to a variant, it is the
first declared variant that the reference selects.
-/

namespace WireParity.Shape

open WireParity.Value

variable {s : Selections} {path : String} {json : Json} {value : Value}

/-- What is read as a scalar is a scalar of the kind. -/
theorem exists_scalar_of_scalarOfJson {kind : ScalarKind}
    (hread : scalarOfJson kind path json = .ok value) :
    ∃ x : Scalar, x.kind = kind ∧ value = .scalar x := by
  rw [scalarOfJson] at hread
  by_cases hfloat : kind.isFloat = true
  · rw [if_pos hfloat, bind_eq_ok_iff] at hread
    obtain ⟨bits, _, hresult⟩ := hread
    cases hresult
    exact ⟨Scalar.ofBits kind bits, rfl, rfl⟩
  · rw [if_neg hfloat, bind_eq_ok_iff] at hread
    obtain ⟨n, _, hresult⟩ := hread
    rw [Scalar.ofInt?] at hresult
    by_cases hrange : kind.least ≤ n ∧ n < kind.bound
    · rw [if_pos hrange] at hresult
      cases hresult
      exact ⟨Scalar.ofBits kind _, rfl, rfl⟩
    · rw [if_neg hrange] at hresult
      cases hresult

/-- Items are read one after another. -/
theorem itemsOfJson_cons_eq_ok {read : Json → Nat → Except CodecError Value} {index : Nat}
    {rest : List Json} {values : List Value} :
    itemsOfJson read index (json :: rest) = .ok values ↔
      ∃ item others, read json index = .ok item ∧
        itemsOfJson read (index + 1) rest = .ok others ∧ values = item :: others := by
  rw [itemsOfJson, bind_eq_ok_iff]
  refine ⟨?_, ?_⟩
  · intro h
    obtain ⟨item, hitem, hrest⟩ := h
    obtain ⟨others, hothers, hresult⟩ := bind_eq_ok_iff.mp hrest
    cases hresult
    exact ⟨item, others, hitem, hothers, rfl⟩
  · intro h
    obtain ⟨item, others, hitem, hothers, rfl⟩ := h
    exact ⟨item, hitem, bind_eq_ok_iff.mpr ⟨others, hothers, rfl⟩⟩

/-- An array is read from an array with the counted number of items. -/
theorem valueAt_array_eq_ok {elem : Shape} {count : UInt64} :
    (Shape.array elem count).valueAt s json path = .ok value ↔
      ∃ items values, json = .array items ∧ items.length = count.toNat ∧
        itemsOfJson (fun item index => elem.valueAt s item (Path.element path index)) 0 items =
          .ok values ∧ value = .array values := by
  cases json with
  | array items =>
    rw [valueAt]
    by_cases hlength : items.length = count.toNat
    · rw [if_pos hlength, bind_eq_ok_iff]
      refine ⟨?_, ?_⟩
      · intro h
        obtain ⟨values, hread, hresult⟩ := h
        cases hresult
        exact ⟨items, values, rfl, hlength, hread, rfl⟩
      · intro h
        obtain ⟨others, values, hitems, _, hread, rfl⟩ := h
        cases hitems
        exact ⟨values, hread, rfl⟩
    · simp [hlength]
  | _ => simp [valueAt]

/-- No key is unknown exactly if every key is a declared name. -/
theorem find?_undeclaredKey_eq_none {fields : List (Named Shape)} {members : Table Json} :
    (Table.keys members).find? (fun key => !fields.any fun field => field.name == key) = none ↔
      ∀ key ∈ Table.keys members, key ∈ fields.map Named.name := by
  simp

/-- A struct is read from an object that has no other keys than the declared names. -/
theorem valueAt_struct_eq_ok {fields : List (Named Shape)} :
    (Shape.struct fields).valueAt s json path = .ok value ↔
      ∃ members values, json = .object members ∧
        (∀ key ∈ Table.keys members, key ∈ fields.map Named.name) ∧
        valueFields s path members fields = .ok values ∧ value = .struct values := by
  refine ⟨?_, ?_⟩
  · intro hread
    cases json with
    | object members =>
      rw [valueAt] at hread
      cases hextra : (Table.keys members).find? fun key => !fields.any fun f => f.name == key with
      | some key =>
        rw [hextra] at hread
        cases hread
      | none =>
        rw [hextra] at hread
        obtain ⟨values, hvalues, hresult⟩ := bind_eq_ok_iff.mp hread
        cases hresult
        exact ⟨members, values, rfl, find?_undeclaredKey_eq_none.mp hextra, hvalues, rfl⟩
    | _ => cases hread
  · intro h
    obtain ⟨members, values, rfl, hdeclared, hvalues, rfl⟩ := h
    rw [valueAt, find?_undeclaredKey_eq_none.mpr hdeclared]
    exact bind_eq_ok_iff.mpr ⟨values, hvalues, rfl⟩

/-- Declared fields are read in order, each from the member of its name. -/
theorem valueFields_cons_eq_ok {members : Table Json} {name : String} {shape : Shape}
    {fields : List (Named Shape)} {values : List (Named Value)} :
    valueFields s path members (⟨name, shape⟩ :: fields) = .ok values ↔
      ∃ json value others, Table.find? name members = some json ∧
        shape.valueAt s json (Path.child path name) = .ok value ∧
        valueFields s path members fields = .ok others ∧ values = ⟨name, value⟩ :: others := by
  rw [valueFields]
  cases hfound : Table.find? name members with
  | none => simp
  | some json =>
    simp only [bind_eq_ok_iff, Option.some.injEq]
    refine ⟨?_, ?_⟩
    · intro h
      obtain ⟨value, hvalue, others, hothers, hresult⟩ := h
      cases hresult
      exact ⟨json, value, others, rfl, hvalue, hothers, rfl⟩
    · intro h
      obtain ⟨_, value, others, rfl, hvalue, hothers, rfl⟩ := h
      exact ⟨value, hvalue, others, hothers, rfl⟩

/-- The first variant that a reference selects. -/
def variantReferred? (ref : VariantRef) (variants : List (Variant Shape)) :
    Option (Variant Shape) :=
  variants.find? fun variant => ref.selects variant.name variant.tag

/-- The variant that is referred to is declared. -/
theorem mem_of_variantReferred? {ref : VariantRef} {variants : List (Variant Shape)}
    {variant : Variant Shape} (hfound : variantReferred? ref variants = some variant) :
    variant ∈ variants :=
  List.mem_of_find?_eq_some hfound

/-- The variant that is referred to is selected by the reference. -/
theorem selects_of_variantReferred? {ref : VariantRef} {variants : List (Variant Shape)}
    {variant : Variant Shape} (hfound : variantReferred? ref variants = some variant) :
    ref.selects variant.name variant.tag = true :=
  List.find?_some (p := fun v : Variant Shape => ref.selects v.name v.tag) hfound

/-- A variant is read as the first that is referred to, and a payload only where one is declared. -/
theorem valueVariant_eq_ok {ref : VariantRef} {payload : Option Json}
    {variants : List (Variant Shape)} :
    valueVariant s path ref payload variants = .ok value ↔
      (∃ name tag, variantReferred? ref variants = some ⟨name, tag, none⟩ ∧ payload = none ∧
        value = .enum tag none) ∨
      ∃ name tag shape json back, variantReferred? ref variants = some ⟨name, tag, some shape⟩ ∧
        payload = some json ∧ shape.valueAt s json (Path.child path name) = .ok back ∧
        value = .enum tag (some back) := by
  induction variants with
  | nil => simp [valueVariant, variantReferred?]
  | cons variant variants ih =>
    obtain ⟨name, tag, declared⟩ := variant
    rw [valueVariant.eq_def, variantReferred?, List.find?_cons]
    cases hselects : ref.selects name tag with
    | false =>
      simp only [hselects, Bool.false_eq_true, if_false]
      exact ih
    | true =>
      simp only [hselects, if_true, Option.some.injEq, Variant.mk.injEq]
      cases declared with
      | none =>
        cases payload with
        | none => simp [eq_comm]
        | some json => simp
      | some shape =>
        cases payload with
        | none => simp
        | some json =>
          simp only [bind_eq_ok_iff]
          refine ⟨?_, ?_⟩
          · intro h
            obtain ⟨back, hback, hresult⟩ := h
            cases hresult
            exact Or.inr ⟨name, tag, shape, json, back, ⟨rfl, rfl, rfl⟩, rfl, hback, rfl⟩
          · intro h
            rcases h with ⟨_, _, ⟨_, _, hnone⟩, _⟩ |
              ⟨_, _, _, _, back, ⟨rfl, rfl, hshape⟩, hjson, hback, rfl⟩
            · cases hnone
            · cases hshape
              cases hjson
              exact ⟨back, hback, rfl⟩

/-- An enum is read from JSON that refers to a declared variant and has no stray keys. -/
theorem valueAt_enum_eq_ok {variants : List (Variant Shape)} :
    (Shape.enum variants).valueAt s json path = .ok value ↔
      ∃ ref, variantRefOf path json = .ok ref ∧ strayKey? json = none ∧
        valueVariant s path ref (payloadOf json) variants = .ok value := by
  rw [valueAt, bind_eq_ok_iff]
  refine ⟨?_, ?_⟩
  · intro h
    obtain ⟨ref, href, hread⟩ := h
    by_cases hknown : (variants.any fun v => ref.selects v.name v.tag) = true
    · rw [hknown] at hread
      cases hstray : strayKey? json with
      | some key =>
        rw [hstray] at hread
        cases hread
      | none =>
        rw [hstray] at hread
        exact ⟨ref, href, rfl, hread⟩
    · rw [Bool.not_eq_true] at hknown
      rw [hknown] at hread
      cases hread
  · intro h
    obtain ⟨ref, href, hstray, hread⟩ := h
    have hknown : (variants.any fun v => ref.selects v.name v.tag) = true := by
      rw [List.any_eq_true]
      rcases valueVariant_eq_ok.mp hread with ⟨_, _, hfound, _⟩ | ⟨_, _, _, _, _, hfound, _⟩
      · exact ⟨_, mem_of_variantReferred? hfound, selects_of_variantReferred? hfound⟩
      · exact ⟨_, mem_of_variantReferred? hfound, selects_of_variantReferred? hfound⟩
    refine ⟨ref, href, ?_⟩
    rw [hknown, hstray]
    exact hread

/-- The member to read is looked up by its name. -/
theorem valueMember_eq (name : String) (members : List (Named Shape)) :
    valueMember s path name json members =
      ((Shape.union members).memberNamed? name).elim (.error ⟨path, .unknownVariant (.name name)⟩)
        fun member => member.item.valueAt s json (Path.child path member.name) :=
  search_eq_find? (valueMember s path name json) rfl (fun ⟨_, _⟩ _ => rfl) members

/-- A union is read as its selected member. -/
theorem valueAt_union_eq_ok {members : List (Named Shape)} :
    (Shape.union members).valueAt s json path = .ok value ↔
      ∃ name shape, s.get? path = some name ∧
        (Shape.union members).memberNamed? name = some ⟨name, shape⟩ ∧
        shape.valueAt s json (Path.child path name) = .ok value := by
  rw [valueAt]
  cases hselected : s.get? path with
  | none => simp
  | some name =>
    simp only [valueMember_eq, Option.some.injEq]
    cases hmember : (Shape.union members).memberNamed? name with
    | none => simp [hmember]
    | some member =>
      obtain ⟨other, shape⟩ := member
      have hother : other = name := name_of_memberNamed? hmember
      subst hother
      simp [hmember]

end WireParity.Shape
