import WireParity.Proofs.Codec.Encoding
import WireParity.Proofs.Codec.RoundTrip
import WireParity.Proofs.Shape.Size
import WireParity.Proofs.Shape.WellFormed

/-!
# Sizes and lengths

The size of a shape is computed from the selections, an encoding from the value, and the two have to
agree on the number of bytes. They look at different things: a size takes the variant that is
selected by name, an encoding the one whose tag the value carries, so agreement needs every enum
that encoding visits to be selected accordingly. Members of unions are taken from the selections on
both sides.

A static shape has nothing to select. It has one length, which is its size at every path and the
length of each of its encodings; this is why an array of static elements may be sized by one of
them.
-/

namespace WireParity

namespace Samples

/-- The selections of the packet that also name the variants of its steps, which its size depends
on. -/
def packetChoices : Selections :=
  .ofList [("raw", "bytes"), ("steps[0]", "Pair"), ("steps[1]", "None")]

end Samples

namespace Shape

variable {s : Selections} {path : String}

/-- Encoding a value at a path comes to an enum at a node, where the value carries the tag of a
variant. -/
inductive VisitsEnum (s : Selections) : Shape → String → Value → String → Variant Shape → Prop
  /-- An enum is visited itself, for the first variant with the tag. -/
  | here {variants : List (Variant Shape)} {path : String} {tag : UInt8} {payload : Option Value}
      {variant : Variant Shape} :
      (Shape.enum variants).variantTagged? tag = some variant →
      VisitsEnum s (.enum variants) path (.enum tag payload) path variant
  /-- So is every enum inside its payload. -/
  | payload {variants : List (Variant Shape)} {path name node : String} {tag : UInt8}
      {shape : Shape} {value : Value} {variant : Variant Shape} :
      (Shape.enum variants).variantTagged? tag = some ⟨name, tag, some shape⟩ →
      VisitsEnum s shape (Path.child path name) value node variant →
      VisitsEnum s (.enum variants) path (.enum tag (some value)) node variant
  /-- Every element of an array is visited, at its own path. -/
  | item {elem : Shape} {count : UInt64} {path node : String} {items : List Value} {index : Nat}
      {value : Value} {variant : Variant Shape} :
      items[index]? = some value →
      VisitsEnum s elem (Path.element path index) value node variant →
      VisitsEnum s (.array elem count) path (.array items) node variant
  /-- Every declared field of a struct is visited, with the first value of its name. -/
  | field {fields : List (Named Shape)} {path node : String} {values : List (Named Value)}
      {field : Named Shape} {value : Value} {variant : Variant Shape} :
      field ∈ fields → Value.fieldIn? field.name values = some value →
      VisitsEnum s field.item (Path.child path field.name) value node variant →
      VisitsEnum s (.struct fields) path (.struct values) node variant
  /-- Of a union, only the selected member is visited. -/
  | member {members : List (Named Shape)} {path name node : String} {shape : Shape} {value : Value}
      {variant : Variant Shape} :
      s.get? path = some name → (Shape.union members).memberNamed? name = some ⟨name, shape⟩ →
      VisitsEnum s shape (Path.child path name) value node variant →
      VisitsEnum s (.union members) path value node variant

/-- At every enum that encoding the value visits, the variant of the value's tag is selected. -/
def SelectsTags (s : Selections) (shape : Shape) (path : String) (value : Value) : Prop :=
  ∀ node variant, shape.VisitsEnum s path value node variant → s.get? node = some variant.name

/-- A length is that of a shape if every size measures it and every encoding has it. -/
structure HasLength (s : Selections) (shape : Shape) (length : Nat) : Prop where
  size : ∀ path, Measures (shape.sizeAt s path) length
  encoding : ∀ path value bytes, shape.encodeAt s value path = .write bytes → bytes.length = length

/-- Elements of one length take that length each. -/
theorem length_emitItems {elem : Shape} {length : Nat} (helem : elem.HasLength s length)
    {index : Nat} {items : List Value} {bytes : Bytes}
    (hwritten : emitItems (fun item index => elem.encodeAt s item (Path.element path index))
      index items = .write bytes) : bytes.length = length * items.length := by
  induction items generalizing index bytes with
  | nil =>
    cases Emission.write_eq_write.mp hwritten
    rfl
  | cons item items ih =>
    obtain ⟨front, back, hfront, hback, rfl⟩ := emitItems_cons_eq_write.mp hwritten
    have hitem : front.length = length := helem.encoding _ _ _ hfront
    rw [List.length_append, List.length_cons, hitem, ih hback, Nat.mul_succ, Nat.add_comm]

/-- Fields of one length each have one length together, whatever total they are added to. -/
theorem exists_length_fields {fields : List (Named Shape)}
    (hfields : ∀ field ∈ fields, ∃ length, field.item.HasLength s length) :
    ∃ length, (∀ path total, total < sizeLimit →
        Measures (sizeFields s path total fields) (total + length)) ∧
      ∀ path values bytes, encodeFields s path values fields = .write bytes →
        bytes.length = length := by
  induction fields with
  | nil =>
    refine ⟨0, fun path total htotal => measures_ok htotal, fun path values bytes hwritten => ?_⟩
    cases Emission.write_eq_write.mp hwritten
    rfl
  | cons field fields ih =>
    rw [List.forall_mem_cons] at hfields
    obtain ⟨⟨front, hfront⟩, hrest⟩ := hfields
    obtain ⟨back, hsizes, hlengths⟩ := ih hrest
    obtain ⟨name, shape⟩ := field
    refine ⟨front + back, fun path total _ => ?_, fun path values bytes hwritten => ?_⟩
    · rw [sizeFields, ← Nat.add_assoc]
      exact (hfront.size (Path.child path name)).add_bind (Nat.le_add_right _ _)
        fun htotal => hsizes path (total + front) htotal
    · obtain ⟨value, first, others, _, hfirst, hothers, rfl⟩ :=
        encodeFields_cons_eq_write.mp hwritten
      rw [List.length_append, hfront.encoding _ _ _ hfirst, hlengths _ _ _ hothers]

/-- A static shape has one length. -/
theorem exists_hasLength (s : Selections) {shape : Shape} (hstatic : shape.isStatic = true) :
    ∃ length, shape.HasLength s length := by
  induction shape with
  | scalar kind =>
    refine ⟨kind.width, fun path => ?_, fun path value bytes hwritten => ?_⟩
    · rw [sizeAt]
      exact measures_ok (width_lt_sizeLimit kind)
    · obtain ⟨x, rfl, rfl, rfl⟩ := encodeAt_scalar_eq_write.mp hwritten
      exact x.length_bytes
  | array elem count ih =>
    by_cases hcount : count = 0
    · refine ⟨0, fun path => ?_, fun path value bytes hwritten => ?_⟩
      · rw [sizeAt, if_pos hcount]
        exact measures_ok sizeLimit_pos
      · obtain ⟨items, rfl, hlength, hitems⟩ := encodeAt_array_eq_write.mp hwritten
        have hnone : items = [] := List.eq_nil_of_length_eq_zero (by rw [hlength, hcount]; rfl)
        subst hnone
        cases Emission.write_eq_write.mp hitems
        rfl
    · have helem := isStatic_of_array hstatic hcount
      obtain ⟨length, hone⟩ := ih helem
      have hpos : 0 < count.toNat := toNat_pos_of_ne_zero hcount
      refine ⟨length * count.toNat, fun path => ?_, fun path value bytes hwritten => ?_⟩
      · rw [sizeAt, if_neg hcount, if_pos helem]
        exact (hone.size path).bind (Nat.le_mul_of_pos_right length hpos)
          fun _ => measures_checkedSize path (length * count.toNat)
      · obtain ⟨items, rfl, hlength, hitems⟩ := encodeAt_array_eq_write.mp hwritten
        rw [length_emitItems hone hitems, hlength]
  | struct fields ih =>
    rw [isStatic, fieldsStatic_eq_true] at hstatic
    obtain ⟨length, hsizes, hlengths⟩ :=
      exists_length_fields fun field hfield => ih field hfield (hstatic field hfield)
    refine ⟨length, fun path => ?_, fun path value bytes hwritten => ?_⟩
    · rw [sizeAt, ← Nat.zero_add length]
      exact hsizes path 0 sizeLimit_pos
    · obtain ⟨values, rfl, _, hvalues⟩ := encodeAt_struct_eq_write.mp hwritten
      exact hlengths _ _ _ hvalues
  | enum variants => cases hstatic
  | union members => cases hstatic

/-- What sizing a shape at any path amounts to: the length of an encoding there, if the variants
that the encoding meets are selected. -/
def SizesEncodings (s : Selections) (shape : Shape) : Prop :=
  ∀ path value bytes, shape.encodeAt s value path = .write bytes →
    SelectsTags s shape path value → Measures (shape.sizeAt s path) bytes.length

/-- Elements are summed to the length of what they are written to, if one element is sized so. -/
theorem measures_sumSizes {elem : Shape} (helem : elem.SizesEncodings s) {index total : Nat}
    {items : List Value} {bytes : Bytes} (htotal : total < sizeLimit)
    (hwritten : emitItems (fun item index => elem.encodeAt s item (Path.element path index))
      index items = .write bytes)
    (hselects : ∀ (i : Nat) item, items[i]? = some item →
      SelectsTags s elem (Path.element path (index + i)) item) :
    Measures (sumSizes path (fun i => elem.sizeAt s (Path.element path i)) items.length index total)
      (total + bytes.length) := by
  induction items generalizing index total bytes with
  | nil =>
    cases Emission.write_eq_write.mp hwritten
    exact measures_ok htotal
  | cons item items ih =>
    obtain ⟨front, back, hfront, hback, rfl⟩ := emitItems_cons_eq_write.mp hwritten
    have hone : Measures (elem.sizeAt s (Path.element path index)) front.length :=
      helem _ _ _ hfront (hselects 0 item rfl)
    have hothers : ∀ (i : Nat) other, items[i]? = some other →
        SelectsTags s elem (Path.element path (index + 1 + i)) other := by
      intro i other hother
      rw [Nat.add_assoc, Nat.add_comm 1 i]
      exact hselects (i + 1) other hother
    rw [List.length_cons, sumSizes, List.length_append, ← Nat.add_assoc]
    exact hone.add_bind (Nat.le_add_right _ _) fun hsum => ih hsum hback hothers

/-- Fields are summed to the length of what they are written to, if each field is sized so. -/
theorem measures_sizeFields {fields : List (Named Shape)}
    (hfields : ∀ field ∈ fields, field.item.SizesEncodings s) {total : Nat}
    {values : List (Named Value)} {bytes : Bytes} (htotal : total < sizeLimit)
    (hwritten : encodeFields s path values fields = .write bytes)
    (hselects : ∀ field ∈ fields, ∀ value, Value.fieldIn? field.name values = some value →
      SelectsTags s field.item (Path.child path field.name) value) :
    Measures (sizeFields s path total fields) (total + bytes.length) := by
  induction fields generalizing total bytes with
  | nil =>
    cases Emission.write_eq_write.mp hwritten
    exact measures_ok htotal
  | cons field fields ih =>
    obtain ⟨name, shape⟩ := field
    rw [List.forall_mem_cons] at hfields hselects
    obtain ⟨value, front, back, hvalue, hfront, hback, rfl⟩ :=
      encodeFields_cons_eq_write.mp hwritten
    have hone : Measures (shape.sizeAt s (Path.child path name)) front.length :=
      hfields.1 _ _ _ hfront (hselects.1 value hvalue)
    rw [sizeFields, List.length_append, ← Nat.add_assoc]
    exact hone.add_bind (Nat.le_add_right _ _) fun hsum => ih hfields.2 hsum hback hselects.2

/-- In a well-formed shape, an encoding whose variants are selected is as long as the size. -/
theorem sizesEncodings (s : Selections) {shape : Shape} (hwell : shape.WellFormed) :
    shape.SizesEncodings s := by
  induction hwell with
  | scalar kind =>
    intro path value bytes hwritten _
    have hstatic : (Shape.scalar kind).isStatic = true := rfl
    obtain ⟨length, hlength⟩ := exists_hasLength s hstatic
    rw [hlength.encoding _ _ _ hwritten]
    exact hlength.size path
  | @array elem count _ ih =>
    intro path value bytes hwritten hselects
    by_cases hstatic : (Shape.array elem count).isStatic = true
    · -- No element is looked at here, so the selections at their paths do not matter.
      obtain ⟨length, hlength⟩ := exists_hasLength s hstatic
      rw [hlength.encoding _ _ _ hwritten]
      exact hlength.size path
    · obtain ⟨hcount, helem⟩ : count ≠ 0 ∧ ¬elem.isStatic = true := by simpa [isStatic] using hstatic
      obtain ⟨items, rfl, hlength, hitems⟩ := encodeAt_array_eq_write.mp hwritten
      have hitem : ∀ (i : Nat) item, items[i]? = some item →
          SelectsTags s elem (Path.element path (0 + i)) item := by
        intro i item hitem node variant hvisit
        rw [Nat.zero_add] at hvisit
        exact hselects node variant (.item hitem hvisit)
      have hsum := measures_sumSizes ih sizeLimit_pos hitems hitem
      rw [sizeAt, if_neg hcount, if_neg helem, ← hlength, ← Nat.zero_add bytes.length]
      exact hsum
  | struct _ _ ih =>
    intro path value bytes hwritten hselects
    obtain ⟨values, rfl, _, hvalues⟩ := encodeAt_struct_eq_write.mp hwritten
    have hsum := measures_sizeFields ih sizeLimit_pos hvalues
      fun field hfield value hvalue node variant hvisit =>
        hselects node variant (.field hfield hvalue hvisit)
    rw [sizeAt, ← Nat.zero_add bytes.length]
    exact hsum
  | enum _ hnames _ _ ih =>
    intro path value bytes hwritten hselects
    rcases encodeAt_enum_eq_write.mp hwritten with ⟨tag, name, rfl, hvariant, rfl⟩ |
      ⟨tag, name, shape, payload, back, rfl, hvariant, hback, rfl⟩
    · have hnamed := variantNamed?_of_mem hnames (mem_of_variantTagged? hvariant)
      exact measures_enum (hselects path _ (.here hvariant)) hnamed (measures_ok sizeLimit_pos)
    · have hdeclared := mem_of_variantTagged? hvariant
      have hnamed := variantNamed?_of_mem hnames hdeclared
      have hpayload : Measures (shape.sizeAt s (Path.child path name)) back.length :=
        ih _ hdeclared shape rfl _ _ _ hback fun node variant hvisit =>
          hselects node variant (.payload hvariant hvisit)
      exact measures_enum (hselects path _ (.here hvariant)) hnamed hpayload
  | union _ _ _ ih =>
    intro path value bytes hwritten hselects
    obtain ⟨name, shape, hselected, hmember, hvalue⟩ := encodeAt_union_eq_write.mp hwritten
    rw [sizeAt_union hselected hmember]
    exact ih _ (mem_of_memberNamed? hmember) _ _ _ hvalue fun node variant hvisit =>
      hselects node variant (.member hselected hmember hvisit)

/-- The check that an encoding is as long as the size of its shape. It is made where the size is
static, and passes where there is no size. -/
def lengthChecks (shape : Shape) (s : Selections) (bytes : Bytes) : Bool :=
  !shape.isStatic || (shape.size s).toOption.all fun size => size == bytes.length

/-- An encoding of fewer bytes than the limit is as long as the size of its shape says, if every
enum on the way has its variant selected by name; a static shape needs no selection. The check that
encoding makes of its own length never fails. -/
theorem size_of_encode (shape : Shape) (value : Value) (s : Selections) (bytes : Bytes)
    (hvalid : shape.validate = .ok ()) (hencode : shape.encode value s = .ok bytes) :
    (bytes.length < sizeLimit →
      (∀ node variant, shape.VisitsEnum s Path.root value node variant →
        s.get? node = some variant.name) →
      shape.size s = .ok bytes.length) ∧
    (bytes.length < sizeLimit → shape.isStatic = true → shape.size s = .ok bytes.length) ∧
    shape.lengthChecks s bytes = true := by
  have hwritten := encode_eq_ok_iff.mp hencode
  have hmeasured : shape.isStatic = true → Measures (shape.size s) bytes.length := by
    intro hstatic
    obtain ⟨length, hlength⟩ := exists_hasLength s hstatic
    rw [hlength.encoding _ _ _ hwritten]
    exact hlength.size Path.root
  refine ⟨fun hlimit hselects => ?_, fun hlimit hstatic => (hmeasured hstatic).eq_ok hlimit, ?_⟩
  · have hsize := sizesEncodings s (wellFormed_of_validate hvalid) _ _ _ hwritten hselects
    exact hsize.eq_ok hlimit
  · rw [lengthChecks]
    cases hstatic : shape.isStatic with
    | false => rfl
    | true =>
      cases hsize : shape.size s with
      | error fault => rfl
      | ok n =>
        have hlength : n = bytes.length := ((hmeasured hstatic n).mp hsize).1
        simp [Except.toOption, hlength]

/-- The choices for the packet name the variant of each of its two steps. -/
theorem selectsTags_packet :
    SelectsTags Samples.packetChoices Samples.packet Path.root Samples.packetShuffled := by
  intro node variant hvisit
  cases hvisit with
  | field hfield hvalue hvisit =>
    simp only [List.mem_cons, List.not_mem_nil, or_false] at hfield
    rcases hfield with rfl | rfl | rfl
    · cases hvisit
    · cases hvalue
      cases hvisit with
      | @item _ _ _ _ _ index _ _ hitem hvisit =>
        match index, hitem with
        | 0, rfl =>
          cases hvisit with
          | here hvariant =>
            cases hvariant
            decide
          | payload hvariant hvisit =>
            cases hvariant
            cases hvisit with
            | field hfield _ hvisit =>
              simp only [List.mem_cons, List.not_mem_nil, or_false] at hfield
              rcases hfield with rfl | rfl <;> cases hvisit
        | 1, rfl =>
          cases hvisit with
          | here hvariant =>
            cases hvariant
            decide
    · cases hvisit with
      | member hselected hmember hvisit =>
        cases hselected
        cases hmember
        cases hvisit with
        | item _ hvisit => cases hvisit

/-- The packet is as long as the size of its shape under these choices, and a point is without
any. -/
theorem size_of_encode_packet :
    (Samples.packet.validate = .ok () ∧
      Samples.packet.encode Samples.packetShuffled Samples.packetChoices = .ok Samples.packetBytes ∧
      Samples.packetBytes.length < sizeLimit ∧
      SelectsTags Samples.packetChoices Samples.packet Path.root Samples.packetShuffled ∧
      Samples.packet.size Samples.packetChoices = .ok Samples.packetBytes.length) ∧
    (Samples.point.validate = .ok () ∧
      Samples.point.encode (.struct [⟨"y", .scalar (.ofBits .i32 2)⟩, ⟨"x", .scalar (.ofBits .i32 1)⟩])
        .empty = .ok [1, 0, 0, 0, 2, 0, 0, 0] ∧
      Samples.point.isStatic = true ∧ Samples.point.size .empty = .ok 8) := by
  have hpacket : Samples.packet.validate = .ok () := by decide
  have hpacketBytes : Samples.packet.encode Samples.packetShuffled Samples.packetChoices =
      .ok Samples.packetBytes := by decide
  have hlimit : Samples.packetBytes.length < sizeLimit := by decide
  have hpoint : Samples.point.validate = .ok () := by decide
  have hpointBytes : Samples.point.encode (.struct [⟨"y", .scalar (.ofBits .i32 2)⟩,
      ⟨"x", .scalar (.ofBits .i32 1)⟩]) .empty = .ok [1, 0, 0, 0, 2, 0, 0, 0] := by decide
  refine ⟨⟨hpacket, hpacketBytes, hlimit, selectsTags_packet, ?_⟩, hpoint, hpointBytes, rfl, ?_⟩
  · exact (size_of_encode _ _ _ _ hpacket hpacketBytes).1 hlimit selectsTags_packet
  · exact (size_of_encode _ _ _ _ hpoint hpointBytes).2.1 (by decide) rfl

end Shape

end WireParity
