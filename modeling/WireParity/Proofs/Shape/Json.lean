import WireParity.Proofs.Shape.Induction
import WireParity.Shape.Json

/-!
# Shapes read back from JSON

A shape is read by as many levels as its JSON is deep, and each level reads one form. `reads` says
so with room to spare, so that the parts of a form are read by what is left of the depth.
-/

namespace WireParity

/-- A kind has its name to itself. -/
theorem ScalarKind.ofName?_name (kind : ScalarKind) : ofName? kind.name = some kind := by
  cases kind <;> rfl

namespace WrittenJson

/-- A natural number is read back below any bound that it keeps. -/
theorem natBelow?_int {bound n : Nat} (hn : n < bound) :
    natBelow? bound (.number (.int n)) = some n := by
  have hrange : (0 : Int) ≤ (n : Int) ∧ (n : Int) < (bound : Int) := by omega
  rw [natBelow?, if_pos hrange, Int.toNat_natCast]

end WrittenJson

namespace Layer

variable {read : WrittenJson → Option Shape} {shape : Shape}

/-- The JSON of a shape is not null. -/
theorem nullable_written (shape : Shape) :
    Slot.nullable read shape.written = (read shape.written).map some := by
  cases shape <;> rw [Shape.written] <;> rfl

/-- A field or member is read if its shape is. -/
theorem named?_written (name : String) (hread : read shape.written = some shape) :
    named? read (.object [("name", .string name), ("type", shape.written)]) =
      some ⟨name, shape⟩ := by
  change (read shape.written).bind _ = _
  rw [hread]
  rfl

/-- A variant without a payload is read. -/
theorem variant?_bare (name : String) (tag : UInt8) :
    variant? read (.object [("name", .string name), ("tag", .number (.int tag.toNat))]) =
      some ⟨name, tag, none⟩ := by
  have hslots : WrittenJson.record? false ["name", "tag", "payload"]
      (.object [("name", .string name), ("tag", .number (.int tag.toNat))]) =
        some [.given (.string name), .given (.number (.int tag.toNat)), .omitted] := rfl
  rw [variant?, hslots]
  simp only [Slot.required, Slot.orDefault, WrittenJson.text?,
    WrittenJson.natBelow?_int tag.toNat_lt, Option.bind_eq_bind, Option.bind_some,
    UInt8.ofNat_toNat, Option.pure_def]

/-- A variant with a payload is read if the shape of its payload is. -/
theorem variant?_loaded (name : String) (tag : UInt8) (hread : read shape.written = some shape) :
    variant? read (.object [("name", .string name), ("tag", .number (.int tag.toNat)),
      ("payload", shape.written)]) = some ⟨name, tag, some shape⟩ := by
  have hslots : WrittenJson.record? false ["name", "tag", "payload"]
      (.object [("name", .string name), ("tag", .number (.int tag.toNat)),
        ("payload", shape.written)]) =
        some [.given (.string name), .given (.number (.int tag.toNat)), .given shape.written] := rfl
  rw [variant?, hslots]
  simp only [Slot.required, Slot.orDefault, WrittenJson.text?, nullable_written, hread,
    WrittenJson.natBelow?_int tag.toNat_lt, Option.bind_eq_bind, Option.bind_some, Option.map_some,
    UInt8.ofNat_toNat, Option.pure_def]

section Forms

variable {items : List WrittenJson}

/-- A scalar is read by the name of its kind. -/
theorem read?_scalar (kind : ScalarKind) :
    read? read "primitive" (.string kind.name) = some (.scalar kind) := by
  rw [read?, kind?, kind.ofName?_name]
  rfl

/-- An array is read if its element is. -/
theorem read?_array (count : UInt64) (hread : read shape.written = some shape) :
    read? read "fixed_array"
        (.object [("elem", shape.written), ("count", .number (.int count.toNat))]) =
      some (.array shape count) := by
  have hslots : WrittenJson.record? false ["elem", "count"]
      (.object [("elem", shape.written), ("count", .number (.int count.toNat))]) =
        some [.given shape.written, .given (.number (.int count.toNat))] := rfl
  have hcount : count.toNat < Nat.pow 2 64 := by
    rw [Nat.pow_eq]
    exact count.toNat_lt
  rw [read?, hslots]
  simp only
  rw [Slot.required, Slot.required, hread, WrittenJson.natBelow?_int hcount]
  simp only [Option.bind_eq_bind, Option.bind_some, UInt64.ofNat_toNat, Option.pure_def]

/-- A struct is read if its fields are. -/
theorem read?_struct {fields : List (Named Shape)} (hread : items.mapM (named? read) = some fields) :
    read? read "struct" (.object [("fields", .array items)]) = some (.struct fields) := by
  have hlist : listUnder? "fields" (named? read) (.object [("fields", .array items)]) =
      items.mapM (named? read) := rfl
  rw [read?, hlist, hread]
  rfl

/-- An enum is read if its variants are. -/
theorem read?_enum {variants : List (Variant Shape)}
    (hread : items.mapM (variant? read) = some variants) :
    read? read "enum" (.object [("variants", .array items)]) = some (.enum variants) := by
  have hlist : listUnder? "variants" (variant? read) (.object [("variants", .array items)]) =
      items.mapM (variant? read) := rfl
  rw [read?, hlist, hread]
  rfl

/-- A union is read if its members are. -/
theorem read?_union {members : List (Named Shape)}
    (hread : items.mapM (named? read) = some members) :
    read? read "union" (.object [("variants", .array items)]) = some (.union members) := by
  have hlist : listUnder? "variants" (named? read) (.object [("variants", .array items)]) =
      items.mapM (named? read) := rfl
  rw [read?, hlist, hread]
  rfl

end Forms

end Layer

namespace Shape

variable {read : WrittenJson → Option Shape}

/-- Fields or members are read if their shapes are. -/
theorem mapM_writtenNamed {fields : List (Named Shape)}
    (hfields : ∀ field ∈ fields, read field.item.written = some field.item) :
    (writtenNamed fields).mapM (Layer.named? read) = some fields := by
  induction fields with
  | nil => rfl
  | cons field fields ih =>
    obtain ⟨name, shape⟩ := field
    rw [List.forall_mem_cons] at hfields
    rw [writtenNamed, List.mapM_cons, Layer.named?_written name hfields.1, ih hfields.2]
    rfl

/-- Variants are read if the shapes of their payloads are. -/
theorem mapM_writtenVariants {variants : List (Variant Shape)}
    (hvariants : ∀ variant ∈ variants, ∀ shape, variant.payload = some shape →
      read shape.written = some shape) :
    (writtenVariants variants).mapM (Layer.variant? read) = some variants := by
  induction variants with
  | nil => rfl
  | cons variant variants ih =>
    obtain ⟨name, tag, payload⟩ := variant
    rw [List.forall_mem_cons] at hvariants
    cases payload with
    | none =>
      rw [writtenVariants, List.mapM_cons, Layer.variant?_bare, ih hvariants.2]
      rfl
    | some shape =>
      rw [writtenVariants, List.mapM_cons,
        Layer.variant?_loaded name tag (hvariants.1 shape rfl), ih hvariants.2]
      rfl

/-- The JSON of a field or member is at least one level deeper than that of its shape. -/
theorem depth_lt_of_mem_named {fields : List (Named Shape)} {field : Named Shape}
    (hfield : field ∈ fields) :
    field.item.written.depth < WrittenJson.itemsDepth (writtenNamed fields) := by
  induction fields with
  | nil => cases hfield
  | cons first fields ih =>
    obtain ⟨name, shape⟩ := first
    simp only [writtenNamed, WrittenJson.itemsDepth, WrittenJson.depth, WrittenJson.membersDepth]
    rcases List.mem_cons.mp hfield with rfl | hfield
    · dsimp only
      omega
    · have := ih hfield
      omega

/-- The JSON of a variant is at least one level deeper than that of the shape of its payload. -/
theorem depth_lt_of_mem_variants {variants : List (Variant Shape)} {variant : Variant Shape}
    {shape : Shape} (hvariant : variant ∈ variants) (hpayload : variant.payload = some shape) :
    shape.written.depth < WrittenJson.itemsDepth (writtenVariants variants) := by
  induction variants with
  | nil => cases hvariant
  | cons first variants ih =>
    obtain ⟨name, tag, payload⟩ := first
    rcases List.mem_cons.mp hvariant with rfl | hvariant
    · cases hpayload
      simp only [writtenVariants, WrittenJson.itemsDepth, WrittenJson.depth,
        WrittenJson.membersDepth]
      omega
    · have := ih hvariant
      cases payload <;>
        simp only [writtenVariants, WrittenJson.itemsDepth] <;> omega

/-- The first member of an object is not as deep as the object. -/
theorem depth_lt_object (key : String) (json : WrittenJson) (rest : List (String × WrittenJson)) :
    json.depth < (WrittenJson.object ((key, json) :: rest)).depth := by
  simp only [WrittenJson.depth, WrittenJson.membersDepth]
  omega

/-- A form is read within its depth, if its body is within any depth that the body keeps. -/
theorem readWithin?_choice {depth : Nat} {name : String} {body : WrittenJson} {layer : Layer Shape}
    (hdepth : (WrittenJson.object [(name, body)]).depth ≤ depth)
    (hread : ∀ below, body.depth ≤ below → Layer.read? (readWithin? below) name body = some layer) :
    readWithin? depth (.object [(name, body)]) = some (ofLayer layer) := by
  have hbody := depth_lt_object name body []
  obtain ⟨below, rfl⟩ := Nat.exists_eq_add_of_le' (show 1 ≤ depth by omega)
  rw [readWithin?, WrittenJson.choice?, Option.bind_some, hread below (by omega), Option.map_some]

/-- The JSON of a shape is read by any number of levels that it is no deeper than. -/
theorem reads (shape : Shape) {depth : Nat} (hdepth : shape.written.depth ≤ depth) :
    readWithin? depth shape.written = some shape := by
  induction shape generalizing depth with
  | scalar kind =>
    rw [written, ScalarKind.written] at hdepth ⊢
    exact readWithin?_choice hdepth fun _ _ => Layer.read?_scalar kind
  | array elem count ih =>
    rw [written] at hdepth ⊢
    refine readWithin?_choice hdepth fun below hbelow => Layer.read?_array count (ih ?_)
    have helem := depth_lt_object "elem" elem.written [("count", .number (.int count.toNat))]
    omega
  | struct fields ih =>
    rw [written] at hdepth ⊢
    refine readWithin?_choice hdepth fun below hbelow =>
      Layer.read?_struct (mapM_writtenNamed fun field hfield => ih field hfield ?_)
    have hlist := depth_lt_object "fields" (.array (writtenNamed fields)) []
    have hitem := depth_lt_of_mem_named hfield
    rw [WrittenJson.depth] at hlist
    omega
  | enum variants ih =>
    rw [written] at hdepth ⊢
    refine readWithin?_choice hdepth fun below hbelow => Layer.read?_enum
      (mapM_writtenVariants fun variant hvariant shape hpayload =>
        ih variant hvariant shape hpayload ?_)
    have hlist := depth_lt_object "variants" (.array (writtenVariants variants)) []
    have hitem := depth_lt_of_mem_variants hvariant hpayload
    rw [WrittenJson.depth] at hlist
    omega
  | union members ih =>
    rw [written] at hdepth ⊢
    refine readWithin?_choice hdepth fun below hbelow =>
      Layer.read?_union (mapM_writtenNamed fun member hmember => ih member hmember ?_)
    have hlist := depth_lt_object "variants" (.array (writtenNamed members)) []
    have hitem := depth_lt_of_mem_named hmember
    rw [WrittenJson.depth] at hlist
    omega

/-- A shape is read back from its JSON. -/
theorem ofJson?_written (shape : Shape) : ofJson? shape.written = some shape :=
  reads shape (Nat.le_refl _)

end Shape

end WireParity
