import WireParity.Proofs.Codec.Denotation
import WireParity.Proofs.Codec.JsonReading
import WireParity.Proofs.Codec.JsonScalar
import WireParity.Proofs.Table
import WireParity.Proofs.Value.Fields

/-!
# Writers of JSON and the reader

There is more than one writer of JSON, but one reader. `Composes` says what the reader asks of a
writer: what it writes for a value is put together from what it writes for the parts, and an enum's
object refers to its variant by name or by tag. For every such writer, whatever can be encoded is
read back from JSON as the value that its bytes denote.

A null payload would be taken for none. It cannot occur, because nothing at all is read from null.
-/

namespace WireParity.Shape

open WireParity.Value

/-- A way to write values as JSON, given their shape and the path they lie at. -/
abbrev JsonWriter := Shape → Value → String → Json

/-- The members of an enum's object that refer to a variant, by its name and by its tag. -/
def references (name : String) (tag : UInt8) : List (String × Json) :=
  [("variant", .string name), ("tag", .nat tag.toNat)]

/-- The members of an enum's object: the payload, where there is one, and a reference. -/
def enumMembers (payload : Option Json) (reference : String × Json) : List (String × Json) :=
  (payload.map fun json => ("payload", json)).toList ++ [reference]

/-- The writer puts values together from what it writes for their parts. -/
structure Composes (s : Selections) (write : JsonWriter) : Prop where
  scalar : ∀ x path, write (.scalar x.kind) (.scalar x) path = x.toJson
  array : ∀ elem count items path, write (.array elem count) (.array items) path =
    .array (jsonItems (fun item index => write elem item (Path.element path index)) 0 items)
  struct : ∀ fields values path, (fields.map Named.name).Nodup → ∃ member : Named Value → Json,
    write (.struct fields) (.struct values) path =
        .ofMembers (values.map fun value => (value.name, member value)) ∧
      ∀ field ∈ fields, ∀ value, value.name = field.name →
        member value = write field.item value.item (Path.child path field.name)
  bare : ∀ variants name tag path,
    (Shape.enum variants).variantTagged? tag = some ⟨name, tag, none⟩ →
    ∃ reference ∈ references name tag,
      write (.enum variants) (.enum tag none) path = .ofMembers (enumMembers none reference)
  loaded : ∀ variants name tag shape payload path,
    (Shape.enum variants).variantTagged? tag = some ⟨name, tag, some shape⟩ →
    ∃ reference ∈ references name tag, write (.enum variants) (.enum tag (some payload)) path =
      .ofMembers (enumMembers (some (write shape payload (Path.child path name))) reference)
  union : ∀ members name shape value path, s.get? path = some name →
    (Shape.union members).memberNamed? name = some ⟨name, shape⟩ →
    write (.union members) value path = write shape value (Path.child path name)

section Enums

variable {name : String} {tag : UInt8} {reference : String × Json} {payload : Option Json}
  {path : String}

/-- The keys of an enum's object are distinct, and known. -/
theorem keys_enumMembers (payload : Option Json) (href : reference ∈ references name tag) :
    ((enumMembers payload reference).map Prod.fst).Nodup ∧
      ∀ key ∈ (enumMembers payload reference).map Prod.fst, key ∈ variantKeys := by
  rw [references, List.mem_cons, List.mem_singleton] at href
  rcases href with rfl | rfl
  · cases payload <;> simp [enumMembers, variantKeys]
  · cases payload <;> simp [enumMembers, variantKeys]

/-- An enum's object has no stray keys. -/
theorem strayKey?_enumMembers (href : reference ∈ references name tag) :
    strayKey? (.ofMembers (enumMembers payload reference)) = none := by
  show (Table.keys (Table.ofList _)).find? (fun key => !variantKeys.contains key) = none
  rw [List.find?_eq_none]
  intro key hkey
  have hknown := (keys_enumMembers payload href).2 key (Table.mem_of_mem_keys_ofList hkey)
  simp [hknown]

/-- An enum's object refers to the variant that it was written for. -/
theorem variantRefOf_enumMembers (path : String) (payload : Option Json)
    (href : reference ∈ references name tag) :
    ∃ ref, variantRefOf path (.ofMembers (enumMembers payload reference)) = .ok ref ∧
      (ref = .name name ∨ ref = .tag tag.toNat) := by
  have hkeys := (keys_enumMembers payload href).1
  have hfound := Table.find?_ofList_of_mem hkeys (List.mem_append_right _ List.mem_cons_self)
  unfold Json.ofMembers variantRefOf
  rw [references, List.mem_cons, List.mem_singleton] at href
  rcases href with rfl | rfl
  · refine ⟨.name name, ?_, Or.inl rfl⟩
    simp only [hfound]
  · have hunnamed : Table.find? "variant"
        (Table.ofList (enumMembers payload ("tag", .nat tag.toNat))) = none := by
      apply Table.find?_ofList_of_notMem
      cases payload <;> simp [enumMembers]
    have hbyte : (0 : Int) ≤ (tag.toNat : Int) ∧ (tag.toNat : Int) < 256 := by
      have := tag.toNat_lt
      omega
    refine ⟨.tag tag.toNat, ?_, Or.inr rfl⟩
    dsimp only at hfound ⊢
    rw [hunnamed, hfound]
    show (if (0 : Int) ≤ (tag.toNat : Int) ∧ (tag.toNat : Int) < 256 then _ else _) = _
    rw [if_pos hbyte, Int.toNat_natCast]

/-- The payload in an enum's object is found, unless it is null. -/
theorem payloadOf_enumMembers (href : reference ∈ references name tag) :
    payloadOf (.ofMembers (enumMembers payload reference)) =
      payload.filter fun json => !json.isNull := by
  have hkeys := (keys_enumMembers payload href).1
  show (Table.find? "payload" (Table.ofList _)).filter _ = _
  cases payload with
  | none =>
    rw [Table.find?_ofList_of_notMem, Option.filter_none]
    rw [references, List.mem_cons, List.mem_singleton] at href
    rcases href with rfl | rfl <;> simp [enumMembers]
  | some json => rw [Table.find?_ofList_of_mem hkeys List.mem_cons_self]

/-- With distinct names and tags, either reference to a variant selects it. -/
theorem variantReferred?_of_mem {variants : List (Variant Shape)}
    (hnames : (variants.map Variant.name).Nodup) (htags : (variants.map Variant.tag).Nodup)
    {variant : Variant Shape} (hvariant : variant ∈ variants) {ref : VariantRef}
    (href : ref = .name variant.name ∨ ref = .tag variant.tag.toNat) :
    variantReferred? ref variants = some variant := by
  rcases href with rfl | rfl
  · exact find?_key_eq_some Variant.name hnames hvariant
  · have hselects : (fun other : Variant Shape =>
        (VariantRef.tag variant.tag.toNat).selects other.name other.tag) =
          fun other => other.tag == variant.tag :=
      funext fun other => Bool.eq_iff_iff.mpr (by simp [VariantRef.selects, UInt8.toNat_inj])
    rw [variantReferred?, hselects]
    exact find?_key_eq_some Variant.tag htags hvariant

/-- An enum is read from such an object by the variant that the object was written for. -/
theorem valueAt_enumMembers {s : Selections} {variants : List (Variant Shape)}
    (hnames : (variants.map Variant.name).Nodup) (htags : (variants.map Variant.tag).Nodup)
    {declared : Option Shape} (hvariant : ⟨name, tag, declared⟩ ∈ variants)
    (href : reference ∈ references name tag) :
    ∃ ref, variantReferred? ref variants = some ⟨name, tag, declared⟩ ∧ ∀ value,
      (Shape.enum variants).valueAt s (.ofMembers (enumMembers payload reference)) path =
          .ok value ↔
        valueVariant s path ref (payload.filter fun json => !json.isNull) variants =
          .ok value := by
  obtain ⟨ref, hread, hrefers⟩ := variantRefOf_enumMembers path payload href
  refine ⟨ref, variantReferred?_of_mem hnames htags hvariant hrefers, fun value => ?_⟩
  rw [valueAt_enum_eq_ok, payloadOf_enumMembers href]
  refine ⟨?_, ?_⟩
  · intro h
    obtain ⟨other, hother, _, hvalue⟩ := h
    rw [hread] at hother
    cases hother
    exact hvalue
  · intro hvalue
    exact ⟨ref, hread, strayKey?_enumMembers href, hvalue⟩

end Enums

variable {s : Selections} {path : String} {write : JsonWriter}

/-- Nothing is read from null. -/
theorem valueAt_null_ne_ok (shape : Shape) {value : Value} :
    shape.valueAt s .null path ≠ .ok value := by
  intro hread
  induction shape generalizing path value with
  | scalar kind =>
    rw [valueAt, scalarOfJson] at hread
    cases hfloat : kind.isFloat with
    | true =>
      rw [hfloat] at hread
      cases hread
    | false =>
      rw [hfloat] at hread
      cases hread
  | array elem count _ =>
    obtain ⟨_, _, hjson, _⟩ := valueAt_array_eq_ok.mp hread
    cases hjson
  | struct fields _ =>
    obtain ⟨_, _, hjson, _⟩ := valueAt_struct_eq_ok.mp hread
    cases hjson
  | enum variants _ =>
    obtain ⟨_, href, _⟩ := valueAt_enum_eq_ok.mp hread
    cases href
  | union members ih =>
    obtain ⟨_, _, _, hmember, hvalue⟩ := valueAt_union_eq_ok.mp hread
    exact ih _ (mem_of_memberNamed? hmember) hvalue

/-- What writing a shape as JSON amounts to: whatever is encoded is read back as the value that its
bytes denote. -/
def ReadsBack (s : Selections) (write : JsonWriter) (shape : Shape) : Prop :=
  ∀ path value bytes, value.DistinctFields → shape.encodeAt s value path = .write bytes →
    ∃ back, shape.valueAt s (write shape value path) path = .ok back ∧
      shape.Denotes s path bytes back

/-- As many items are written as there are. -/
theorem length_jsonItems (write : Value → Nat → Json) (index : Nat) (items : List Value) :
    (jsonItems write index items).length = items.length := by
  induction items generalizing index with
  | nil => rfl
  | cons item items ih => exact congrArg (· + 1) (ih (index + 1))

/-- Items are read back one by one, if one is. -/
theorem exists_itemsOfJson_of_emitItems {elem : Shape} (helem : elem.ReadsBack s write)
    {index : Nat} {items : List Value} {bytes : Bytes}
    (hdistinct : ∀ item ∈ items, item.DistinctFields)
    (hwritten : emitItems (fun item index => elem.encodeAt s item (Path.element path index))
      index items = .write bytes) :
    ∃ backs, itemsOfJson (fun json index => elem.valueAt s json (Path.element path index)) index
        (jsonItems (fun item index => write elem item (Path.element path index)) index items) =
          .ok backs ∧
      backs.length = items.length ∧ DenotesItems s elem path index bytes backs := by
  induction items generalizing index bytes with
  | nil =>
    rw [emitItems, Emission.write_eq_write] at hwritten
    subst hwritten
    exact ⟨[], rfl, rfl, .nil elem path index⟩
  | cons item items ih =>
    obtain ⟨front, rest, hitem, hitems, rfl⟩ := emitItems_cons_eq_write.mp hwritten
    rw [List.forall_mem_cons] at hdistinct
    obtain ⟨back, hread, hback⟩ := helem _ item front hdistinct.1 hitem
    obtain ⟨backs, hreads, hlength, hbacks⟩ := ih hdistinct.2 hitems
    refine ⟨back :: backs, ?_, congrArg (· + 1) hlength, .cons hback hbacks⟩
    exact itemsOfJson_cons_eq_ok.mpr ⟨back, backs, hread, hreads, rfl⟩

/-- Declared fields are read back from an object that has what was written for each of them. -/
theorem exists_valueFields_of_encodeFields {fields : List (Named Shape)}
    (hfields : ∀ field ∈ fields, field.item.ReadsBack s write) {members : Table Json}
    {values : List (Named Value)} {bytes : Bytes}
    (hmembers : ∀ field ∈ fields, ∀ value, fieldIn? field.name values = some value →
      Table.find? field.name members = some (write field.item value (Path.child path field.name)))
    (hdistinct : ∀ value ∈ values, value.item.DistinctFields)
    (hwritten : encodeFields s path values fields = .write bytes) :
    ∃ backs, valueFields s path members fields = .ok backs ∧
      DenotesFields s path fields bytes backs := by
  induction fields generalizing bytes with
  | nil =>
    rw [encodeFields, Emission.write_eq_write] at hwritten
    subst hwritten
    exact ⟨[], rfl, .nil path⟩
  | cons field fields ih =>
    obtain ⟨name, shape⟩ := field
    rw [List.forall_mem_cons] at hfields hmembers
    obtain ⟨value, front, rest, hfound, hvalue, hrest, rfl⟩ :=
      encodeFields_cons_eq_write.mp hwritten
    have hitem := hdistinct _ (mem_of_fieldIn? hfound)
    obtain ⟨back, hread, hback⟩ := hfields.1 _ value front hitem hvalue
    obtain ⟨backs, hreads, hbacks⟩ := ih hfields.2 hmembers.2 hrest
    refine ⟨⟨name, back⟩ :: backs, ?_, .cons hback hbacks⟩
    exact valueFields_cons_eq_ok.mpr
      ⟨_, back, backs, hmembers.1 value hfound, hread, hreads, rfl⟩

/-- In a well-formed shape, what a writer that composes makes of an encodable value is read back as
the value that the encoding denotes. -/
theorem readsBack (hwrite : Composes s write) {shape : Shape} (hwell : shape.WellFormed) :
    shape.ReadsBack s write := by
  induction hwell with
  | scalar kind =>
    intro path value bytes _ hwritten
    obtain ⟨x, rfl, rfl, rfl⟩ := encodeAt_scalar_eq_write.mp hwritten
    rw [hwrite.scalar]
    exact ⟨.scalar x, scalarOfJson_toJson x, .scalar path x⟩
  | array count _ ih =>
    intro path value bytes hdistinct hwritten
    obtain ⟨items, rfl, hlength, hitems⟩ := encodeAt_array_eq_write.mp hwritten
    obtain ⟨backs, hreads, hsame, hbacks⟩ :=
      exists_itemsOfJson_of_emitItems ih (distinctFields_array.mp hdistinct) hitems
    rw [hwrite.array]
    refine ⟨.array backs, ?_, .array (hsame.trans hlength) hbacks⟩
    refine valueAt_array_eq_ok.mpr ⟨_, backs, rfl, ?_, hreads, rfl⟩
    rw [length_jsonItems, hlength]
  | @struct fields hnames _ ih =>
    intro path value bytes hdistinct hwritten
    obtain ⟨values, rfl, hdeclared, hvalues⟩ := encodeAt_struct_eq_write.mp hwritten
    obtain ⟨hvalueNames, hitems⟩ := distinctFields_struct.mp hdistinct
    obtain ⟨member, hobject, hmember⟩ := hwrite.struct fields values path hnames
    have hkeys : (values.map fun value => (value.name, member value)).map Prod.fst =
        values.map Named.name := List.map_map
    have hmembers : ∀ field ∈ fields, ∀ value, fieldIn? field.name values = some value →
        Table.find? field.name
            (Table.ofList (values.map fun value => (value.name, member value))) =
          some (write field.item value (Path.child path field.name)) := by
      intro field hfield value hfound
      have hmem := mem_of_fieldIn? hfound
      rw [← hmember field hfield ⟨field.name, value⟩ rfl]
      exact Table.find?_ofList_of_mem (hkeys ▸ hvalueNames)
        (List.mem_map_of_mem (f := fun value => (value.name, member value)) hmem)
    obtain ⟨backs, hreads, hbacks⟩ :=
      exists_valueFields_of_encodeFields ih hmembers hitems hvalues
    rw [hobject]
    refine ⟨.struct backs, ?_, .struct hbacks⟩
    refine valueAt_struct_eq_ok.mpr ⟨_, backs, rfl, ?_, hreads, rfl⟩
    intro key hkey
    have hname := Table.mem_of_mem_keys_ofList hkey
    rw [hkeys] at hname
    obtain ⟨value, hvalue, rfl⟩ := List.mem_map.mp hname
    exact undeclaredField?_eq_none.mp hdeclared value hvalue
  | @enum variants _ hnames htags _ ih =>
    intro path value bytes hdistinct hwritten
    rcases encodeAt_enum_eq_write.mp hwritten with ⟨tag, name, rfl, hvariant, rfl⟩ |
      ⟨tag, name, shape, payload, rest, rfl, hvariant, hpayload, rfl⟩
    · have hmem := mem_of_variantTagged? hvariant
      obtain ⟨reference, href, hobject⟩ := hwrite.bare variants name tag path hvariant
      obtain ⟨ref, hfound, hread⟩ := valueAt_enumMembers hnames htags hmem href
      rw [hobject]
      refine ⟨.enum tag none, (hread _).mpr ?_, .bare hvariant⟩
      exact valueVariant_eq_ok.mpr (Or.inl ⟨name, tag, hfound, rfl, rfl⟩)
    · have hmem := mem_of_variantTagged? hvariant
      obtain ⟨reference, href, hobject⟩ :=
        hwrite.loaded variants name tag shape payload path hvariant
      obtain ⟨ref, hfound, hread⟩ := valueAt_enumMembers hnames htags hmem href
      obtain ⟨back, hback, hdenotes⟩ :=
        ih _ hmem shape rfl _ payload rest (distinctFields_loaded.mp hdistinct) hpayload
      rw [hobject]
      refine ⟨.enum tag (some back), (hread _).mpr ?_, .loaded hvariant hdenotes⟩
      refine valueVariant_eq_ok.mpr (Or.inr ⟨name, tag, shape, _, back, hfound, ?_, hback, rfl⟩)
      -- A null payload would be filtered out, but this one was read.
      cases hjson : write shape payload (Path.child path name) with
      | null => exact absurd (hjson ▸ hback) (valueAt_null_ne_ok shape)
      | _ => rfl
  | union _ _ _ ih =>
    intro path value bytes hdistinct hwritten
    obtain ⟨name, shape, hselected, hmember, hvalue⟩ := encodeAt_union_eq_write.mp hwritten
    obtain ⟨back, hread, hback⟩ :=
      ih _ (mem_of_memberNamed? hmember) _ value bytes hdistinct hvalue
    rw [hwrite.union _ name shape value path hselected hmember]
    refine ⟨back, ?_, .union hselected hmember hback⟩
    exact valueAt_union_eq_ok.mpr ⟨name, shape, hselected, hmember, hread⟩

end WireParity.Shape
