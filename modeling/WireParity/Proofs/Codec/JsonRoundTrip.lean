import WireParity.Proofs.Codec.JsonWriting
import WireParity.Proofs.Codec.RoundTrip

/-!
# Round trips through JSON

Both writers of JSON compose, the one that goes by the shape and the one that does without. The
first names variants and looks shapes up by field name, tag and selection; the second knows tags
only. For either, what is read back is what the bytes of the encoding denote, so it agrees with the
original and encodes to the same bytes.
-/

namespace WireParity

namespace Value

/-- Items are written without regard to their places. -/
theorem itemsToJson_eq (items : List Value) (index : Nat) :
    itemsToJson items = jsonItems (fun item _ => item.toJson) index items := by
  induction items generalizing index with
  | nil => rfl
  | cons item items ih => rw [itemsToJson, jsonItems, ih (index + 1)]

/-- Fields are written under their names. -/
theorem fieldsToJson_eq (fields : List (Named Value)) :
    fieldsToJson fields = fields.map fun field => (field.name, field.item.toJson) := by
  induction fields with
  | nil => rfl
  | cons field fields ih => rw [fieldsToJson.eq_def, List.map_cons, ← ih]

end Value

namespace Shape

variable {s : Selections} {path : String}

/-- The writer that does without shapes composes. -/
theorem composes_toJson (s : Selections) : Composes s fun _ value _ => value.toJson where
  scalar _ _ := rfl
  array _ _ items _ := congrArg Json.array (Value.itemsToJson_eq items 0)
  struct _ values _ _ :=
    ⟨fun value => value.item.toJson, congrArg Json.ofMembers (Value.fieldsToJson_eq values),
      fun _ _ _ _ => rfl⟩
  bare _ _ _ _ _ := ⟨_, List.mem_cons_of_mem _ List.mem_cons_self, rfl⟩
  loaded _ _ _ _ _ _ _ := ⟨_, List.mem_cons_of_mem _ List.mem_cons_self, rfl⟩
  union _ _ _ _ _ _ _ := rfl

/-- With distinct names, a field is written by the shape that is declared for it. -/
theorem jsonField_of_mem {fields : List (Named Shape)} (hnames : (fields.map Named.name).Nodup)
    {field : Named Shape} (hfield : field ∈ fields) {value : Named Value}
    (hname : value.name = field.name) :
    jsonField s path value fields =
      field.item.jsonAt s value.item (Path.child path field.name) := by
  have hsearch : jsonField s path value fields =
      (fields.find? fun other => other.name == value.name).elim value.item.toJson
        fun other => other.item.jsonAt s value.item (Path.child path other.name) :=
    search_eq_find? (jsonField s path value) rfl (fun ⟨_, _⟩ _ => rfl) fields
  rw [hsearch, hname, find?_key_eq_some Named.name hnames hfield]
  rfl

/-- A member is written by the shape that is found for its name. -/
theorem jsonMember_eq (name : String) (value : Value) (members : List (Named Shape)) :
    jsonMember s path name value members =
      ((Shape.union members).memberNamed? name).elim value.toJson
        fun member => member.item.jsonAt s value (Path.child path member.name) :=
  search_eq_find? (jsonMember s path name value) rfl (fun ⟨_, _⟩ _ => rfl) members

/-- What is written for the payload of a variant. -/
def jsonPayload (s : Selections) (path : String) (variant : Variant Shape) (value : Value) : Json :=
  variant.payload.elim value.toJson fun shape =>
    shape.jsonAt s value (Path.child path variant.name)

/-- An enum is written by the name of the variant that is found for its tag. -/
theorem jsonVariant_eq (tag : UInt8) (payload : Option Value) (variants : List (Variant Shape)) :
    jsonVariant s path tag payload variants =
      ((Shape.enum variants).variantTagged? tag).elim (Value.enum tag payload).toJson
        fun variant => .ofMembers
          (enumMembers (payload.map (jsonPayload s path variant))
            ("variant", .string variant.name)) := by
  refine search_eq_find? (jsonVariant s path tag payload) rfl (fun variant rest => ?_) variants
  obtain ⟨name, other, declared⟩ := variant
  cases payload <;> cases declared <;> rfl

/-- The writer that goes by the shape composes. -/
theorem composes_jsonAt (s : Selections) :
    Composes s fun shape value path => shape.jsonAt s value path where
  scalar _ _ := rfl
  array _ _ _ _ := rfl
  struct fields _ path hnames :=
    ⟨fun value => jsonField s path value fields, rfl,
      fun _ hfield _ hname => jsonField_of_mem hnames hfield hname⟩
  bare variants name tag path hvariant := by
    refine ⟨("variant", .string name), List.mem_cons_self, ?_⟩
    show jsonVariant s path tag none variants = _
    rw [jsonVariant_eq, hvariant]
    rfl
  loaded variants name tag shape payload path hvariant := by
    refine ⟨("variant", .string name), List.mem_cons_self, ?_⟩
    show jsonVariant s path tag (some payload) variants = _
    rw [jsonVariant_eq, hvariant]
    rfl
  union members name shape value path hselected hmember := by
    rw [jsonAt, hselected]
    show jsonMember s path name value members = _
    rw [jsonMember_eq, hmember]
    rfl

/-- What a composing writer makes of an encodable value is read back as a value that agrees with it
and has its encoding. -/
theorem exists_valueOfJson {write : JsonWriter} (hwrite : Composes s write) {shape : Shape}
    (hwell : shape.WellFormed) {value : Value} {bytes : Bytes} (hdistinct : value.DistinctFields)
    (hencode : shape.encode value s = .ok bytes) :
    ∃ back, shape.valueOfJson (write shape value Path.root) s = .ok back ∧
      value.agrees back = true ∧ back.agrees value = true ∧ shape.encode back s = .ok bytes := by
  have hwritten := encode_eq_ok_iff.mp hencode
  obtain ⟨back, hread, hback⟩ := readsBack hwrite hwell Path.root value bytes hdistinct hwritten
  obtain ⟨other, hother, hmatch⟩ := writesMatches s shape Path.root value bytes hdistinct hwritten
  -- The bytes denote one value only, so what was read is what decoding would give.
  obtain rfl := hback.unique hother
  refine ⟨back, hread, hmatch.agrees, hmatch.symm.agrees, ?_⟩
  exact encode_eq_ok_iff.mpr (writesDenotations s hwell _ _ _ hback)

/-- What bytes decode to is read back from its JSON as it was. -/
theorem valueOfJson_of_decode {shape : Shape} {bytes : Bytes} {value : Value}
    (hvalid : shape.validate = .ok ()) (hdecode : shape.decode bytes s = .ok value) :
    shape.valueOfJson (shape.jsonOfValue value s) s = .ok value := by
  obtain ⟨⟨found, count⟩, hfront, rfl⟩ := map_eq_ok_iff.mp hdecode
  obtain ⟨front, _, _, _, hdenotes⟩ := decodeFront_eq_ok_iff.mp hfront
  have hwell := wellFormed_of_validate hvalid
  have hwritten := writesDenotations s hwell _ _ _ hdenotes
  have hdistinct := distinctFields_of_decodeFront hvalid hfront
  obtain ⟨back, hread, hback⟩ :=
    readsBack (composes_jsonAt s) hwell Path.root found front hdistinct hwritten
  -- The same bytes denote both, and bytes denote one value only.
  rw [hback.unique hdenotes] at hread
  exact hread

/-- JSON loses nothing: written with or without the shape, an encodable value is read back as one
that agrees with it both ways and encodes to exactly the same bytes. -/
theorem valueOfJson_jsonOfValue (shape : Shape) (s : Selections) (value : Value) (bytes : Bytes)
    (hvalid : shape.validate = .ok ()) (hdistinct : value.DistinctFields)
    (hencode : shape.encode value s = .ok bytes) (json : Json)
    (hjson : json = shape.jsonOfValue value s ∨ json = value.toJson) :
    ∃ back, shape.valueOfJson json s = .ok back ∧ value.agrees back = true ∧
      back.agrees value = true ∧ shape.encode back s = .ok bytes := by
  have hwell := wellFormed_of_validate hvalid
  rcases hjson with rfl | rfl
  · exact exists_valueOfJson (composes_jsonAt s) hwell hdistinct hencode
  · exact exists_valueOfJson (composes_toJson s) hwell hdistinct hencode

/-- The shuffled packet comes back from either way to write it, not-a-number and all. -/
theorem valueOfJson_jsonOfValue_packet :
    Samples.packet.validate = .ok () ∧ Samples.packetShuffled.DistinctFields ∧
      Samples.packet.encode Samples.packetShuffled Samples.packetSelections =
        .ok Samples.packetBytes ∧
      (∃ back, Samples.packet.valueOfJson
          (Samples.packet.jsonOfValue Samples.packetShuffled Samples.packetSelections)
          Samples.packetSelections = .ok back ∧
        Samples.packetShuffled.agrees back = true ∧ back.agrees Samples.packetShuffled = true ∧
        Samples.packet.encode back Samples.packetSelections = .ok Samples.packetBytes) ∧
      ∃ back, Samples.packet.valueOfJson Samples.packetShuffled.toJson Samples.packetSelections =
          .ok back ∧
        Samples.packetShuffled.agrees back = true ∧ back.agrees Samples.packetShuffled = true ∧
        Samples.packet.encode back Samples.packetSelections = .ok Samples.packetBytes := by
  have hvalid : Samples.packet.validate = .ok () := by decide
  have hdistinct : Samples.packetShuffled.DistinctFields := by decide
  have hencode : Samples.packet.encode Samples.packetShuffled Samples.packetSelections =
      .ok Samples.packetBytes := by decide
  refine ⟨hvalid, hdistinct, hencode, ?_, ?_⟩
  · exact valueOfJson_jsonOfValue Samples.packet Samples.packetSelections Samples.packetShuffled
      Samples.packetBytes hvalid hdistinct hencode _ (Or.inl rfl)
  · exact valueOfJson_jsonOfValue Samples.packet Samples.packetSelections Samples.packetShuffled
      Samples.packetBytes hvalid hdistinct hencode _ (Or.inr rfl)

end Shape

end WireParity
