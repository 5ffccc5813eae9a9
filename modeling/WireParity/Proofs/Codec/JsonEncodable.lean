import WireParity.Proofs.Codec.JsonReading
import WireParity.Proofs.Codec.RoundTrip

/-!
# What is read from JSON can be encoded

The reader of JSON and the encoder check values independently of each other. They meet in what
bytes denote: whatever is read, in whichever spelling, is a denoted value. It is therefore in the
order of its shape, it encodes, and its bytes decode to nothing else.

Only enums need a well-formed shape for this. A variant is read by its name, but encoded by its
tag, and both have to find the same one.
-/

namespace WireParity

/-- A packet in several spellings: hexadecimal text, a tag in an object, and a bare name. -/
def Samples.packetJson : Json :=
  .ofMembers [("steps", .array [.ofMembers [("tag", .nat 2),
      ("payload", .ofMembers [("second", .nat 7), ("first", .string "0x08")])], .string "None"]),
    ("level", .string "0X7F80_0001"), ("raw", .array [.nat 1, .nat 2, .string "0x3", .nat 4])]

namespace Shape

variable {s : Selections} {path : String}

/-- What reading a shape from JSON at any path amounts to: a value that some bytes denote. -/
def ReadsDenoted (s : Selections) (shape : Shape) : Prop :=
  ∀ path json value, shape.valueAt s json path = .ok value →
    ∃ bytes, shape.Denotes s path bytes value

/-- Items that were read are denoted elements, if one is. -/
theorem exists_denotesItems_of_itemsOfJson {elem : Shape} (helem : elem.ReadsDenoted s)
    {index : Nat} {items : List Json} {values : List Value}
    (hread : Value.itemsOfJson (fun item index => elem.valueAt s item (Path.element path index))
      index items = .ok values) :
    values.length = items.length ∧ ∃ bytes, DenotesItems s elem path index bytes values := by
  induction items generalizing index values with
  | nil =>
    cases hread
    exact ⟨rfl, [], .nil elem path index⟩
  | cons item items ih =>
    obtain ⟨value, others, hitem, hitems, rfl⟩ := itemsOfJson_cons_eq_ok.mp hread
    obtain ⟨front, hfront⟩ := helem _ item value hitem
    obtain ⟨hlength, back, hback⟩ := ih hitems
    exact ⟨congrArg (· + 1) hlength, front ++ back, .cons hfront hback⟩

/-- Fields that were read are denoted fields, if each is. -/
theorem exists_denotesFields_of_valueFields {fields : List (Named Shape)}
    (hfields : ∀ field ∈ fields, field.item.ReadsDenoted s) {members : Table Json}
    {values : List (Named Value)} (hread : valueFields s path members fields = .ok values) :
    ∃ bytes, DenotesFields s path fields bytes values := by
  induction fields generalizing values with
  | nil =>
    cases hread
    exact ⟨[], .nil path⟩
  | cons field fields ih =>
    obtain ⟨name, shape⟩ := field
    rw [List.forall_mem_cons] at hfields
    obtain ⟨json, value, others, _, hvalue, hothers, rfl⟩ := valueFields_cons_eq_ok.mp hread
    obtain ⟨front, hfront⟩ := hfields.1 _ json value hvalue
    obtain ⟨back, hback⟩ := ih hfields.2 hothers
    exact ⟨front ++ back, .cons hfront hback⟩

/-- Whatever is read from JSON in a well-formed shape is denoted by some bytes. -/
theorem readsDenoted (s : Selections) {shape : Shape} (hwell : shape.WellFormed) :
    shape.ReadsDenoted s := by
  induction hwell with
  | scalar kind =>
    intro path json value hread
    obtain ⟨x, rfl, rfl⟩ := exists_scalar_of_scalarOfJson hread
    exact ⟨x.bytes, .scalar path x⟩
  | array count _ ih =>
    intro path json value hread
    obtain ⟨items, values, rfl, hlength, hitems, rfl⟩ := valueAt_array_eq_ok.mp hread
    obtain ⟨hsame, bytes, hbytes⟩ := exists_denotesItems_of_itemsOfJson ih hitems
    exact ⟨bytes, .array (hsame.trans hlength) hbytes⟩
  | struct _ _ ih =>
    intro path json value hread
    obtain ⟨members, values, rfl, _, hvalues, rfl⟩ := valueAt_struct_eq_ok.mp hread
    obtain ⟨bytes, hbytes⟩ := exists_denotesFields_of_valueFields ih hvalues
    exact ⟨bytes, .struct hbytes⟩
  | enum _ _ htags _ ih =>
    intro path json value hread
    obtain ⟨ref, _, _, hvariant⟩ := valueAt_enum_eq_ok.mp hread
    -- The variant was found by its name, perhaps, but the encoder goes by its tag.
    rcases valueVariant_eq_ok.mp hvariant with ⟨name, tag, hfound, _, rfl⟩ |
      ⟨name, tag, shape, payload, back, hfound, _, hback, rfl⟩
    · exact ⟨[tag], .bare (variantTagged?_of_mem htags (mem_of_variantReferred? hfound))⟩
    · have hmem := mem_of_variantReferred? hfound
      obtain ⟨bytes, hbytes⟩ := ih _ hmem shape rfl _ payload back hback
      exact ⟨tag :: bytes, .loaded (variantTagged?_of_mem htags hmem) hbytes⟩
  | union _ _ _ ih =>
    intro path json value hread
    obtain ⟨name, shape, hselected, hmember, hvalue⟩ := valueAt_union_eq_ok.mp hread
    obtain ⟨bytes, hbytes⟩ := ih _ (mem_of_memberNamed? hmember) _ json value hvalue
    exact ⟨bytes, .union hselected hmember hbytes⟩

/-- Values that are read from JSON in a validated shape repeat no field name. -/
theorem distinctFields_of_valueOfJson {shape : Shape} {json : Json} {value : Value}
    (hvalid : shape.validate = .ok ()) (hread : shape.valueOfJson json s = .ok value) :
    value.DistinctFields := by
  have hwell := wellFormed_of_validate hvalid
  obtain ⟨_, hbytes⟩ := readsDenoted s hwell _ json value hread
  exact hbytes.arranges.distinctFields hwell

/-- A value that was read from JSON in a well-formed shape is in the order of the shape, it can be
encoded, and its encoding decodes to the very same value. -/
theorem encode_of_valueOfJson (shape : Shape) (json : Json) (s : Selections) (value : Value)
    (hvalid : shape.validate = .ok ()) (hread : shape.valueOfJson json s = .ok value) :
    shape.Arranges s Path.root value ∧
      ∃ bytes, shape.encode value s = .ok bytes ∧
        shape.decodeFront bytes s = .ok (value, bytes.length) := by
  have hwell := wellFormed_of_validate hvalid
  obtain ⟨bytes, hbytes⟩ := readsDenoted s hwell _ json value hread
  refine ⟨hbytes.arranges, bytes, ?_, ?_⟩
  · exact encode_eq_ok_iff.mpr (writesDenotations s hwell _ bytes value hbytes)
  · exact decodeFront_eq_ok_iff.mpr ⟨bytes, [], (List.append_nil bytes).symm, rfl, hbytes⟩

/-- A packet is read from mixed spellings into declared order, and goes over the wire unchanged. -/
theorem encode_of_valueOfJson_packet :
    Samples.packet.validate = .ok () ∧
      Samples.packet.valueOfJson Samples.packetJson Samples.packetSelections =
        .ok Samples.packetValue ∧
      Samples.packet.Arranges Samples.packetSelections Path.root Samples.packetValue ∧
      ∃ bytes, Samples.packet.encode Samples.packetValue Samples.packetSelections = .ok bytes ∧
        Samples.packet.decodeFront bytes Samples.packetSelections =
          .ok (Samples.packetValue, bytes.length) := by
  have hvalid : Samples.packet.validate = .ok () := by decide
  have hread : Samples.packet.valueOfJson Samples.packetJson Samples.packetSelections =
      .ok Samples.packetValue := by rfl
  exact ⟨hvalid, hread, encode_of_valueOfJson Samples.packet Samples.packetJson
    Samples.packetSelections Samples.packetValue hvalid hread⟩

end Shape

end WireParity
