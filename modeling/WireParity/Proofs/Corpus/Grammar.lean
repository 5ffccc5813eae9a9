import WireParity.Corpus.Load
import WireParity.Proofs.Corpus.Expansion
import WireParity.Proofs.Shape.Json

/-!
# One grammar for shapes and schemas

A manifest writes types by the same rules as shapes are written by, with references for one more
form. `Shape.schema` is a shape seen as a schema, which has no reference in it. The two readers work
level by level, and what either makes of a level depends on nothing but what it makes of the parts;
`Tracks` says that two readers of parts agree, and each form of a level keeps it. So JSON is read as
the schema of a shape exactly where it is read as the shape, and a schema without references resolves
to its shape whatever names stand for.

JSON is a value here and may be of any depth. How deep a text may nest is left to the reader of texts.
-/

namespace WireParity

/-- The same name for something else. -/
def Named.map {α β : Type} (f : α → β) (n : Named α) : Named β := ⟨n.name, f n.item⟩

/-- The same variant with something else for a payload. -/
def Variant.map {α β : Type} (f : α → β) (v : Variant α) : Variant β :=
  ⟨v.name, v.tag, v.payload.map f⟩

/-- The same form over other parts. -/
def Layer.map {α β : Type} (f : α → β) : Layer α → Layer β
  | .scalar kind => .scalar kind
  | .array elem count => .array (f elem) count
  | .struct fields => .struct (fields.map (Named.map f))
  | .enum variants => .enum (variants.map (Variant.map f))
  | .union members => .union (members.map (Named.map f))

namespace Shape

mutual

/-- The schema that says what the shape is, without a reference. -/
def schema : Shape → Schema
  | scalar kind => .scalar kind
  | array elem count => .array elem.schema count
  | struct fields => .struct (schemaNamed fields)
  | enum variants => .enum (schemaVariants variants)
  | union members => .union (schemaNamed members)

/-- The schemas of fields or members. -/
def schemaNamed : List (Named Shape) → List (Named Schema)
  | [] => []
  | ⟨name, shape⟩ :: rest => ⟨name, shape.schema⟩ :: schemaNamed rest

/-- The schemas of variants. -/
def schemaVariants : List (Variant Shape) → List (Variant Schema)
  | [] => []
  | ⟨name, tag, none⟩ :: rest => ⟨name, tag, none⟩ :: schemaVariants rest
  | ⟨name, tag, some shape⟩ :: rest => ⟨name, tag, some shape.schema⟩ :: schemaVariants rest

end

/-- The outermost level of a shape. -/
def layer : Shape → Layer Shape
  | scalar kind => .scalar kind
  | array elem count => .array elem count
  | struct fields => .struct fields
  | enum variants => .enum variants
  | union members => .union members

/-- The schemas of fields are taken one by one. -/
theorem schemaNamed_eq (fields : List (Named Shape)) :
    schemaNamed fields = fields.map (Named.map schema) := by
  induction fields with
  | nil => rfl
  | cons field fields ih => rw [schemaNamed, ih, List.map_cons, Named.map]

/-- The schemas of variants are taken one by one. -/
theorem schemaVariants_eq (variants : List (Variant Shape)) :
    schemaVariants variants = variants.map (Variant.map schema) := by
  induction variants with
  | nil => rfl
  | cons variant variants ih =>
    obtain ⟨name, tag, payload⟩ := variant
    cases payload <;> rw [schemaVariants, ih] <;> rfl

/-- A shape is the one of its outermost level, and of no other. -/
theorem ofLayer_eq_iff {level : Layer Shape} {shape : Shape} :
    ofLayer level = shape ↔ level = shape.layer := by
  cases level <;> cases shape <;> simp [ofLayer, layer]

/-- The schema of a shape is that of its outermost level over the schemas of its parts. -/
theorem ofLayer_schema_iff {level : Layer Schema} {shape : Shape} :
    Schema.ofLayer level = shape.schema ↔ level = shape.layer.map schema := by
  cases level <;> cases shape <;>
    simp [Schema.ofLayer, layer, Layer.map, schema, schemaNamed_eq, schemaVariants_eq]

end Shape

/-- The second reader gives what becomes of a part exactly where the first gives the part. -/
def Tracks {α β : Type} (f : α → β) (read : WrittenJson → Option α)
    (read' : WrittenJson → Option β) : Prop :=
  ∀ json part, read' json = some (f part) ↔ read json = some part

namespace Tracks

variable {α β : Type} {f : α → β} {read : WrittenJson → Option α} {read' : WrittenJson → Option β}

/-- A field that has to be there is read alike. -/
theorem required (h : Tracks f read read') (slot : Slot) (part : α) :
    slot.required read' = some (f part) ↔ slot.required read = some part := by
  cases slot with
  | given json => exact h json part
  | omitted => simp [Slot.required]
  | cut => simp [Slot.required]

/-- What may be null is read alike. -/
theorem nullable (h : Tracks f read read') :
    Tracks (Option.map f) (Slot.nullable read) (Slot.nullable read') := by
  intro json part
  cases part with
  | none => cases json <;> simp [Slot.nullable]
  | some part =>
    cases json with
    | null => simp [Slot.nullable]
    | _ => simp [Slot.nullable, h _ part]

/-- A list is read alike if its items are. -/
theorem list (h : Tracks f read read') :
    Tracks (List.map f) (WrittenJson.list? read) (WrittenJson.list? read') := by
  intro json parts
  cases json with
  | array items =>
    rw [WrittenJson.list?, WrittenJson.list?]
    induction items generalizing parts with
    | nil => cases parts <;> simp
    | cons item items ih =>
      cases parts with
      | nil => simp [List.mapM_cons, Option.bind_eq_some_iff]
      | cons part parts => simp [List.mapM_cons, Option.bind_eq_some_iff, h item part, ih parts]
  | _ => simp [WrittenJson.list?]

/-- A list under a key is read alike if its items are. -/
theorem listUnder (h : Tracks f read read') (key : String) :
    Tracks (List.map f) (Layer.listUnder? key read) (Layer.listUnder? key read') := by
  intro json parts
  rw [Layer.listUnder?, Layer.listUnder?]
  split
  · exact h.list.required _ parts
  · simp

/-- A field or member is read alike if what it holds is. -/
theorem named (h : Tracks f read read') :
    Tracks (Named.map f) (Layer.named? read) (Layer.named? read') := by
  intro json part
  obtain ⟨name, item⟩ := part
  rw [Layer.named?, Layer.named?]
  split
  · simp [Option.bind_eq_some_iff, Named.map, h.required]
  · simp

/-- A variant is read alike if its payload is. -/
theorem variant (h : Tracks f read read') :
    Tracks (Variant.map f) (Layer.variant? read) (Layer.variant? read') := by
  intro json part
  obtain ⟨name, tag, payload⟩ := part
  have hpayload : ∀ slot : Slot, slot.orDefault none (Slot.nullable read') = some (payload.map f) ↔
      slot.orDefault none (Slot.nullable read) = some payload := by
    intro slot
    cases slot with
    | given json => exact h.nullable json payload
    | omitted => cases payload <;> simp [Slot.orDefault]
    | cut => cases payload <;> simp [Slot.orDefault]
  rw [Layer.variant?, Layer.variant?]
  split
  · simp [Option.bind_eq_some_iff, Variant.map, hpayload]
  · simp

/-- A level is read alike, under any key, if its parts are. -/
theorem layer (h : Tracks f read read') (key : String) :
    Tracks (Layer.map f) (Layer.read? read key) (Layer.read? read' key) := by
  intro body level
  rw [Layer.read?.eq_def, Layer.read?.eq_def]
  split
  · cases level <;> simp [Layer.map]
  · split
    · cases level <;> simp [Option.bind_eq_some_iff, Layer.map, h.required]
    · simp
  · cases level <;> simp [Layer.map, h.named.listUnder "fields" body]
  · cases level <;> simp [Layer.map, h.variant.listUnder "variants" body]
  · cases level <;> simp [Layer.map, h.named.listUnder "variants" body]
  · simp

end Tracks

namespace Shape

/-- JSON is read as the schema of a shape exactly where it is read as the shape. -/
theorem tracks_readWithin (depth : Nat) :
    Tracks schema (readWithin? depth) (Schema.readWithin? depth) := by
  induction depth with
  | zero => intro json shape; simp [readWithin?, Schema.readWithin?]
  | succ depth ih =>
    intro json shape
    rw [readWithin?, Schema.readWithin?]
    cases json.choice? with
    | none => simp
    | some choice =>
      obtain ⟨key, body⟩ := choice
      rw [Option.bind_some, Option.bind_some]
      by_cases href : key = "ref"
      · -- Shapes have no such form, and the schema of a shape is no reference.
        subst href
        have hnone : Layer.read? (readWithin? depth) "ref" body = none := rfl
        cases shape <;> simp [hnone, schema]
      · simp only [if_neg href, Option.map_eq_some_iff, ofLayer_schema_iff, ofLayer_eq_iff,
          exists_eq_right]
        exact ih.layer key body shape.layer

/-- The schema of a shape is read where the shape is. -/
theorem schemaOfJson?_eq_iff {json : WrittenJson} {shape : Shape} :
    Schema.ofJson? json = some shape.schema ↔ ofJson? json = some shape :=
  tracks_readWithin json.depth json shape

/-- The JSON of fields or members settles if that of their shapes does. -/
theorem exists_settleItems_writtenNamed {fields : List (Named Shape)}
    (hfields : ∀ field ∈ fields, ∃ json, field.item.written.settle = some json) :
    ∃ items, WrittenJson.settleItems (writtenNamed fields) = some items := by
  induction fields with
  | nil => exact ⟨[], rfl⟩
  | cons field fields ih =>
    obtain ⟨name, shape⟩ := field
    rw [List.forall_mem_cons] at hfields
    obtain ⟨⟨json, hjson⟩, hrest⟩ := hfields
    obtain ⟨items, hitems⟩ := ih hrest
    simp [writtenNamed, WrittenJson.settleItems, WrittenJson.settle, WrittenJson.settleMembers,
      hjson, hitems]

/-- The JSON of variants settles if that of the shapes of their payloads does. -/
theorem exists_settleItems_writtenVariants {variants : List (Variant Shape)}
    (hvariants : ∀ variant ∈ variants, ∀ shape, variant.payload = some shape →
      ∃ json, shape.written.settle = some json) :
    ∃ items, WrittenJson.settleItems (writtenVariants variants) = some items := by
  induction variants with
  | nil => exact ⟨[], rfl⟩
  | cons variant variants ih =>
    obtain ⟨name, tag, payload⟩ := variant
    rw [List.forall_mem_cons] at hvariants
    obtain ⟨items, hitems⟩ := ih hvariants.2
    cases payload with
    | none =>
      simp [writtenVariants, WrittenJson.settleItems, WrittenJson.settle,
        WrittenJson.settleMembers, hitems]
    | some shape =>
      obtain ⟨json, hjson⟩ := hvariants.1 shape rfl
      simp [writtenVariants, WrittenJson.settleItems, WrittenJson.settle,
        WrittenJson.settleMembers, hjson, hitems]

/-- All of a shape's JSON is readable. -/
theorem exists_settle_written (shape : Shape) : ∃ json, shape.written.settle = some json := by
  induction shape with
  | scalar kind =>
    simp [written, ScalarKind.written, WrittenJson.settle, WrittenJson.settleMembers]
  | array elem count ih =>
    obtain ⟨json, hjson⟩ := ih
    simp [written, form, WrittenJson.settle, WrittenJson.settleMembers, hjson]
  | struct fields ih =>
    obtain ⟨items, hitems⟩ := exists_settleItems_writtenNamed ih
    simp [written, form, WrittenJson.settle, WrittenJson.settleMembers, hitems]
  | enum variants ih =>
    obtain ⟨items, hitems⟩ := exists_settleItems_writtenVariants ih
    simp [written, form, WrittenJson.settle, WrittenJson.settleMembers, hitems]
  | union members ih =>
    obtain ⟨items, hitems⟩ := exists_settleItems_writtenNamed ih
    simp [written, form, WrittenJson.settle, WrittenJson.settleMembers, hitems]

/-- A shape's JSON is a type on the spot. -/
theorem typeRefOfJson?_written (shape : Shape) :
    TypeRef.ofJson? shape.written = some (.inline shape.schema) := by
  obtain ⟨json, hjson⟩ := exists_settle_written shape
  have hread : Schema.ofJson? shape.written = some shape.schema :=
    schemaOfJson?_eq_iff.mpr (ofJson?_written shape)
  have hobject : ∃ members, shape.written = .object members := by
    cases shape <;> simp [written, ScalarKind.written, form]
  obtain ⟨members, hmembers⟩ := hobject
  rw [hmembers] at hjson hread ⊢
  simp only [TypeRef.ofJson?, hjson, hread, Option.isNone_some, Bool.false_eq_true, if_false,
    Option.map_some]

end Shape

namespace Resolver

variable (named : String → Resolving Shape) (r : Resolver)

/-- The schemas of fields expand to the fields, if those of their shapes expand to the shapes. -/
theorem expandNamed_schemaNamed {fields : List (Named Shape)}
    (hfields : ∀ field ∈ fields, expand named field.item.schema r = (.ok field.item, r)) :
    expandNamed named (Shape.schemaNamed fields) r = (.ok fields, r) := by
  induction fields with
  | nil => rfl
  | cons field fields ih =>
    obtain ⟨name, shape⟩ := field
    rw [List.forall_mem_cons] at hfields
    simp only [Shape.schemaNamed, expandNamed, Resolving.andThen, Resolving.done, hfields.1,
      ih hfields.2]

/-- The schemas of variants expand to the variants, if those of their payloads expand to these. -/
theorem expandVariants_schemaVariants {variants : List (Variant Shape)}
    (hvariants : ∀ variant ∈ variants, ∀ shape, variant.payload = some shape →
      expand named shape.schema r = (.ok shape, r)) :
    expandVariants named (Shape.schemaVariants variants) r = (.ok variants, r) := by
  induction variants with
  | nil => rfl
  | cons variant variants ih =>
    obtain ⟨name, tag, payload⟩ := variant
    rw [List.forall_mem_cons] at hvariants
    cases payload with
    | none =>
      simp only [Shape.schemaVariants, expandVariants, Resolving.andThen, Resolving.done,
        ih hvariants.2]
    | some shape =>
      simp only [Shape.schemaVariants, expandVariants, Resolving.andThen, Resolving.done,
        hvariants.1 shape rfl, ih hvariants.2]

/-- The schema of a shape expands to the shape. No name is resolved for it, and the resolver is left
as it was. -/
theorem expand_schema (shape : Shape) : expand named shape.schema r = (.ok shape, r) := by
  induction shape with
  | scalar kind => rfl
  | array elem count ih =>
    simp only [Shape.schema, expand, Resolving.andThen, Resolving.done, ih]
  | struct fields ih =>
    simp only [Shape.schema, expand, Resolving.andThen, Resolving.done,
      expandNamed_schemaNamed named r ih]
  | enum variants ih =>
    simp only [Shape.schema, expand, Resolving.andThen, Resolving.done,
      expandVariants_schemaVariants named r ih]
  | union members ih =>
    simp only [Shape.schema, expand, Resolving.andThen, Resolving.done,
      expandNamed_schemaNamed named r ih]

end Resolver

/-- The type of an entry that has the schema of a shape on the spot is the shape, under its text, if
it is valid; whatever table there is, it is not looked at. -/
theorem VectorEntry.resolveType_schema (table : Table Schema) (entry : VectorEntry) (shape : Shape)
    (r : Resolver) :
    ({ entry with type := .inline shape.schema } : VectorEntry).resolveType table r =
      ((shape.validate.mapError .inlineType).map fun _ => (shape.text, shape), r) := by
  simp only [resolveType, Resolver.expand_schema]
  cases shape.validate <;> rfl

/-- The two grammars of types agree. The JSON of a shape is read back as the shape; it is also read
as a schema, directly or as the type of an entry, and that is the one schema that is read wherever
the shape is and nowhere else. The schema expands to the shape, whatever names stand for and whatever
the resolver remembers, and no name is resolved on the way. So an entry with this type has the shape
for its own, unless the shape is not valid, and then it is refused for that reason. -/
theorem Shape.grammars_agree (shape : Shape) :
    Shape.ofJson? shape.written = some shape ∧
    Schema.ofJson? shape.written = some shape.schema ∧
    TypeRef.ofJson? shape.written = some (.inline shape.schema) ∧
    (∀ json, Schema.ofJson? json = some shape.schema ↔ Shape.ofJson? json = some shape) ∧
    (∀ (named : String → Resolving Shape) (r : Resolver),
      Resolver.expand named shape.schema r = (.ok shape, r)) ∧
    ∀ (table : Table Schema) (entry : VectorEntry) (r : Resolver),
      ({ entry with type := .inline shape.schema } : VectorEntry).resolveType table r =
        ((shape.validate.mapError .inlineType).map fun _ => (shape.text, shape), r) :=
  ⟨ofJson?_written shape, schemaOfJson?_eq_iff.mpr (ofJson?_written shape),
    typeRefOfJson?_written shape, fun _ => schemaOfJson?_eq_iff,
    fun named r => Resolver.expand_schema named r shape,
    fun table entry r => entry.resolveType_schema table shape r⟩

end WireParity
