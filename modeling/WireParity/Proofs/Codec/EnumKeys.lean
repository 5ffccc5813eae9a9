import WireParity.Proofs.Codec.JsonReading
import WireParity.Proofs.Shape.WellFormed
import WireParity.Proofs.Table
import WireParity.Samples

/-!
# What the keys of an enum's object say

An object that stands for an enum can tell which variant is meant twice, by name and by tag.
`KeyAgrees` is what each key has to say of the variant and the payload that come out of it. A name
always agrees, a payload always does, and there are no other keys. A tag agrees where it is what
decides, and so wherever there is no name. Beside a name it is not looked at: whatever stands there,
the same value is read.
-/

namespace WireParity

namespace Shape

open Value

/-- What a key of an enum's object says is so of the variant and payload that were read: the name of
the variant, its tag, or what the payload was read from. A null says that there is none. -/
inductive KeyAgrees (s : Selections) (path : String) (variant : Variant Shape) :
    Option Value → String → Json → Prop
  /-- The name is that of the variant. -/
  | name (payload : Option Value) :
      KeyAgrees s path variant payload "variant" (.string variant.name)
  /-- The tag is that of the variant. -/
  | tag (payload : Option Value) :
      KeyAgrees s path variant payload "tag" (.nat variant.tag.toNat)
  /-- There is no payload. -/
  | absent : KeyAgrees s path variant none "payload" .null
  /-- The payload was read as the shape that the variant declares for it. -/
  | payload {shape : Shape} {json : Json} {value : Value} :
      variant.payload = some shape →
      shape.valueAt s json (Path.child path variant.name) = .ok value →
      KeyAgrees s path variant (some value) "payload" json

variable {s : Selections} {path : String} {variants : List (Variant Shape)}
  {members : Table Json} {value : Value}

/-- A tag that agrees is that of the variant. -/
theorem KeyAgrees.eq_tag {variant : Variant Shape} {payload : Option Value} {key : String}
    {json : Json} (h : KeyAgrees s path variant payload key json) (hkey : key = "tag") :
    json = .nat variant.tag.toNat := by
  cases h with
  | tag => rfl
  | name | absent | payload => exact absurd hkey (by decide)

/-- An object refers to a variant by the name in it, or else by the tag. -/
theorem of_variantRefOf_object {ref : VariantRef}
    (href : variantRefOf path (.object members) = .ok ref) :
    (∃ name, Table.find? "variant" members = some (.string name) ∧ ref = .name name) ∨
      (Table.find? "variant" members = none ∧
        ∃ tag : Nat, Table.find? "tag" members = some (.nat tag) ∧ ref = .tag tag) := by
  rw [variantRefOf.eq_def] at href
  cases hname : Table.find? "variant" members with
  | some json =>
    cases json with
    | string name =>
      simp only [hname] at href
      cases href
      exact Or.inl ⟨name, rfl, rfl⟩
    | _ => simp [hname] at href
  | none =>
    refine Or.inr ⟨rfl, ?_⟩
    simp only [hname] at href
    cases htag : Table.find? "tag" members with
    | none => simp [htag] at href
    | some json =>
      rw [htag] at href
      match json, href with
      | .number (.int n), href =>
        simp only at href
        split at href
        · rename_i hbyte
          cases href
          obtain ⟨tag, rfl⟩ := Int.eq_ofNat_of_zero_le hbyte.1
          exact ⟨tag, rfl, rfl⟩
        · cases href

/-- No key of an object is a stray one if the three that mean something are all there is. -/
theorem strayKey?_object_eq_none :
    strayKey? (.object members) = none ↔
      ∀ key ∈ Table.keys members, key = "variant" ∨ key = "tag" ∨ key = "payload" := by
  simp [strayKey?, variantKeys, or_iff_not_imp_left]

/-- What is read of a variant that is referred to agrees with the payload of the object. -/
theorem keyAgrees_payload {ref : VariantRef}
    (hread : valueVariant s path ref (payloadOf (.object members)) variants = .ok value) :
    ∃ variant payload, variantReferred? ref variants = some variant ∧
      value = .enum variant.tag payload ∧
      ∀ json, Table.find? "payload" members = some json →
        KeyAgrees s path variant payload "payload" json := by
  rcases valueVariant_eq_ok.mp hread with ⟨name, tag, hfound, hnone, rfl⟩ |
    ⟨name, tag, shape, json, back, hfound, hsome, hback, rfl⟩
  · refine ⟨⟨name, tag, none⟩, none, hfound, rfl, fun json hjson => ?_⟩
    rw [payloadOf, hjson] at hnone
    cases json with
    | null => exact .absent
    | _ => cases hnone
  · refine ⟨⟨name, tag, some shape⟩, some back, hfound, rfl, fun other hother => ?_⟩
    rw [payloadOf, hother, Option.filter_eq_some_iff, Option.some.injEq] at hsome
    exact .payload rfl (hsome.1 ▸ hback)

/-- Every key of an object agrees with what is read from it, but perhaps for a tag beside a name. -/
theorem exists_keyAgrees_of_valueAt
    (hread : (Shape.enum variants).valueAt s (.object members) path = .ok value) :
    ∃ variant payload, variant ∈ variants ∧ value = .enum variant.tag payload ∧
      ∀ key json, Table.find? key members = some json →
        KeyAgrees s path variant payload key json ∨
          key = "tag" ∧ Table.contains "variant" members = true := by
  obtain ⟨ref, href, hstray, hvariant⟩ := valueAt_enum_eq_ok.mp hread
  obtain ⟨variant, payload, hfound, rfl, hpayload⟩ := keyAgrees_payload hvariant
  have hselects := selects_of_variantReferred? hfound
  refine ⟨variant, payload, mem_of_variantReferred? hfound, rfl, fun key json hjson => ?_⟩
  rcases strayKey?_object_eq_none.mp hstray key (Table.mem_keys_of_find? hjson) with
    rfl | rfl | rfl
  · refine Or.inl ?_
    rcases of_variantRefOf_object href with ⟨name, hname, rfl⟩ | ⟨hnone, _⟩
    · obtain rfl : variant.name = name := beq_iff_eq.mp hselects
      cases hname.symm.trans hjson
      exact .name payload
    · cases hnone.symm.trans hjson
  · rcases of_variantRefOf_object href with ⟨name, hname, _⟩ | ⟨_, tag, htag, rfl⟩
    · exact Or.inr ⟨rfl, by rw [Table.contains, hname, Option.isSome_some]⟩
    · obtain rfl : variant.tag.toNat = tag := beq_iff_eq.mp hselects
      cases htag.symm.trans hjson
      exact Or.inl (.tag payload)
  · exact Or.inl (hpayload json hjson)

/-- Beside a name, no tag makes a difference to what is read. -/
theorem valueAt_insert_tag (hnamed : Table.contains "variant" members = true) (tag : Json) :
    (Shape.enum variants).valueAt s (.object (Table.insert "tag" tag members)) path = .ok value ↔
      (Shape.enum variants).valueAt s (.object members) path = .ok value := by
  obtain ⟨name, hname⟩ := Option.isSome_iff_exists.mp hnamed
  have hkept : ∀ key, key ≠ "tag" →
      Table.find? key (Table.insert "tag" tag members) = Table.find? key members :=
    fun key hkey => Table.find?_insert_of_ne hkey tag members
  have href : variantRefOf path (.object (Table.insert "tag" tag members)) =
      variantRefOf path (.object members) := by
    simp only [variantRefOf, hkept "variant" (by decide), hname]
    cases name <;> rfl
  have hstray : strayKey? (.object (Table.insert "tag" tag members)) = none ↔
      strayKey? (.object members) = none := by
    simp [strayKey?_object_eq_none, Table.mem_keys_insert]
  have hpayload : payloadOf (.object (Table.insert "tag" tag members)) =
      payloadOf (.object members) := by
    rw [payloadOf, payloadOf, hkept "payload" (by decide)]
  rw [valueAt_enum_eq_ok, valueAt_enum_eq_ok, href, hpayload]
  simp only [hstray]

/-- Every key of an object that is read as a validated enum agrees with the variant and payload that
come out of it, exactly if a tag that stands beside a name is the one of the variant. All else agrees
in any case: the name, the payload, a tag without a name, and there are no keys but these. The tag
beside a name may be any JSON, and the same value is read. -/
theorem keyAgrees_iff_tag (variants : List (Variant Shape)) (members : Table Json) (s : Selections)
    (value : Value) (hvalid : (Shape.enum variants).validate = .ok ())
    (hread : (Shape.enum variants).valueOfJson (.object members) s = .ok value) :
    ∃ variant payload, value = .enum variant.tag payload ∧
      (Shape.enum variants).variantTagged? variant.tag = some variant ∧
      (∀ key json, Table.find? key members = some json →
        KeyAgrees s Path.root variant payload key json ∨
          key = "tag" ∧ Table.contains "variant" members = true) ∧
      ((∀ key json, Table.find? key members = some json →
          KeyAgrees s Path.root variant payload key json) ↔
        (Table.contains "variant" members = true → ∀ json,
          Table.find? "tag" members = some json → json = .nat variant.tag.toNat)) ∧
      (Table.contains "variant" members = true → ∀ tag,
        (Shape.enum variants).valueOfJson (.object (Table.insert "tag" tag members)) s =
          .ok value) := by
  obtain ⟨variant, payload, hvariant, rfl, hkeys⟩ := exists_keyAgrees_of_valueAt hread
  have hfound : (Shape.enum variants).variantTagged? variant.tag = some variant := by
    cases wellFormed_of_validate hvalid with
    | enum _ _ htags _ => exact variantTagged?_of_mem htags hvariant
  refine ⟨variant, payload, rfl, hfound, hkeys, ⟨?_, fun htag key json hjson => ?_⟩, ?_⟩
  · exact fun hall _ json hjson => (hall "tag" json hjson).eq_tag rfl
  · rcases hkeys key json hjson with hagrees | ⟨rfl, hnamed⟩
    · exact hagrees
    · rw [htag hnamed json hjson]
      exact .tag payload
  · exact fun hnamed tag => (valueAt_insert_tag hnamed tag).mpr hread

end Shape

namespace Samples

/-- A choice by its tag, with a payload. -/
def tagged : Table Json := [("payload", .nat 7), ("tag", .nat 1)]

/-- A choice by its name, with the tag of another variant beside it. -/
def mislabelled : Table Json := [("payload", .nat 7), ("tag", .nat 0), ("variant", .string "Value")]

end Samples

namespace Shape

/-- Without a name, all the keys agree. -/
theorem keyAgrees_iff_tag_tagged :
    Samples.choice.validate = .ok () ∧
      Samples.choice.valueOfJson (.object Samples.tagged) .empty =
        .ok (.enum 1 (some (.scalar (.ofBits .u32 7)))) ∧
      ∃ variant payload,
        Value.enum 1 (some (.scalar (.ofBits .u32 7))) = .enum variant.tag payload ∧
        Samples.choice.variantTagged? variant.tag = some variant ∧
        ∀ key json, Table.find? key Samples.tagged = some json →
          KeyAgrees .empty Path.root variant payload key json := by
  have hvalid : Samples.choice.validate = .ok () := by decide
  have hread : Samples.choice.valueOfJson (.object Samples.tagged) .empty =
      .ok (.enum 1 (some (.scalar (.ofBits .u32 7)))) := by rfl
  obtain ⟨variant, payload, hvalue, hfound, -, hall, -⟩ :=
    keyAgrees_iff_tag _ Samples.tagged .empty _ hvalid hread
  exact ⟨hvalid, hread, variant, payload, hvalue, hfound, hall.mpr (fun hnamed => by cases hnamed)⟩

/-- Beside the name of one variant, the tag of another is accepted, and what it says is not so. -/
theorem not_keyAgrees_mislabelled :
    Samples.choice.validate = .ok () ∧
      Samples.choice.valueOfJson (.object Samples.mislabelled) .empty =
        .ok (.enum 1 (some (.scalar (.ofBits .u32 7)))) ∧
      ¬∃ variant payload,
        Value.enum 1 (some (.scalar (.ofBits .u32 7))) = .enum variant.tag payload ∧
        Samples.choice.variantTagged? variant.tag = some variant ∧
        ∀ key json, Table.find? key Samples.mislabelled = some json →
          KeyAgrees .empty Path.root variant payload key json := by
  refine ⟨by decide, by rfl, ?_⟩
  rintro ⟨variant, payload, hvalue, -, hall⟩
  have htag : Json.nat 0 = .nat variant.tag.toNat := (hall "tag" (.nat 0) rfl).eq_tag rfl
  rw [← (Value.enum.inj hvalue).1] at htag
  cases htag

end Shape

end WireParity
