import WireParity.Proofs.Codec.Tokens

/-!
# Encodings by the value alone

Encoding is driven by a shape: fields are looked up by their declared names, variants by their tags,
and members of unions by what is selected for their paths. None of this leaves a trace. Where a
value lists the fields of its structs as they are declared, it is written as its own tags and
scalars from left to right, and so in the same way under every shape that takes it.

What an encoding denotes is a value that matches the encoded one, in the order of the shape. Two
matching values in that order are the same, so the encoding denotes the encoded value itself, and a
denoted value is its tokens.
-/

namespace WireParity

namespace Samples

/-- A packet whose raw bytes are no union, and whose steps have other names. -/
def plainPacket : Shape :=
  .struct [field "level" .f32,
    ⟨"steps", .array (.enum [⟨"Stop", 0, none⟩,
      ⟨"Move", 2, some (.struct [field "first" .u16, field "second" .u16])⟩]) 2⟩,
    ⟨"raw", .array (.scalar .u8) 4⟩]

end Samples

/-- Named values are the same if their names are and, position by position, what has one name is the
same. -/
theorem Value.fields_eq {xs ys : List (Named Value)}
    (hnames : xs.map Named.name = ys.map Named.name)
    (hitems : ∀ (index : Nat) x y, xs[index]? = some x → ys[index]? = some y → x.name = y.name →
      x.item = y.item) : xs = ys := by
  induction xs generalizing ys with
  | nil => exact (List.map_eq_nil_iff.mp hnames.symm).symm
  | cons x xs ih =>
    cases ys with
    | nil => cases hnames
    | cons y ys =>
      rw [List.map_cons, List.map_cons, List.cons.injEq] at hnames
      have hitem : x.item = y.item := hitems 0 x y rfl rfl hnames.1
      have hfirst : x = y := (Named.mk.injEq ..).mpr ⟨hnames.1, hitem⟩
      rw [hfirst, ih hnames.2 fun index => hitems (index + 1)]

namespace Shape

variable {s : Selections} {path : String}

/-- Matching values in the order of a shape are the same. -/
theorem Arranges.eq_of_matches {shape : Shape} {x y : Value} (hx : shape.Arranges s path x)
    (hy : shape.Arranges s path y) (hmatch : x.Matches y) : x = y := by
  induction shape generalizing path x y with
  | scalar kind =>
    cases hx with
    | scalar =>
      cases hmatch
      rfl
  | array elem count ih =>
    cases hx with
    | array hxs =>
      cases hmatch with
      | array hlength hmatches =>
        cases hy with
        | array hys =>
          congr 1
          refine List.ext_getElem hlength fun index hxi hyi => ?_
          have hx := List.getElem?_eq_getElem hxi
          have hy := List.getElem?_eq_getElem hyi
          exact ih (hxs index _ hx) (hys index _ hy) (hmatches index _ _ hx hy)
  | struct fields ih =>
    cases hx with
    | struct hxnames hxs =>
      cases hmatch with
      | struct _ hmatches =>
        cases hy with
        | struct hynames hys =>
          congr 1
          refine Value.fields_eq (hxnames.trans hynames.symm) fun index x y hx hy hname => ?_
          -- Both are arranged by the field that is declared at their position.
          obtain ⟨field, hfield, _⟩ := exists_field_of_names hxnames hx
          exact ih field (List.mem_of_getElem? hfield) (hxs index field x hfield hx)
            (hys index field y hfield hy)
            (hmatches x (List.mem_of_getElem? hx) y (List.mem_of_getElem? hy) hname)
  | enum variants ih =>
    cases hx with
    | bare _ _ tag =>
      cases hmatch
      rfl
    | loaded hxvariant hx =>
      cases hmatch with
      | loaded tag hmatch =>
        cases hy with
        | loaded hyvariant hy =>
          cases hxvariant.symm.trans hyvariant
          rw [ih _ (mem_of_variantTagged? hxvariant) _ rfl hx hy hmatch]
  | union members ih =>
    cases hx with
    | union hxselected hxmember hx =>
      cases hy with
      | union hyselected hymember hy =>
        cases hxselected.symm.trans hyselected
        cases hxmember.symm.trans hymember
        exact ih _ (mem_of_memberNamed? hxmember) hx hy hmatch

/-- In the order of a validated shape, a value is denoted by whatever it is encoded as. -/
theorem denotes_of_encode {shape : Shape} {value : Value} {bytes : Bytes}
    (hvalid : shape.validate = .ok ()) (hencode : shape.encode value s = .ok bytes)
    (horder : shape.Arranges s Path.root value) : shape.Denotes s Path.root bytes value := by
  have hdistinct := horder.distinctFields (wellFormed_of_validate hvalid)
  obtain ⟨back, hback, hmatch⟩ := (encode_eq_ok_iff_denotes hdistinct).mp hencode
  rw [horder.eq_of_matches hback.arranges hmatch]
  exact hback

/-- What is decoded is in the order of the shape. -/
theorem arranges_of_decodeFront {shape : Shape} {bytes : Bytes} {value : Value} {count : Nat}
    (hdecode : shape.decodeFront bytes s = .ok (value, count)) :
    shape.Arranges s Path.root value := by
  obtain ⟨_, _, _, _, hfront⟩ := decodeFront_eq_ok_iff.mp hdecode
  exact hfront.arranges

/-- A value in the order of its shape is encoded as its own tags and scalars from left to right: a
scalar as the little-endian bytes of its pattern, an enum as its tag and then its payload. So under
any two shapes and selections that take a value in this order, its encodings are the same. -/
theorem encode_eq_wire_tokens (shape : Shape) (s : Selections) (value : Value) (bytes : Bytes)
    (hvalid : shape.validate = .ok ()) (hencode : shape.encode value s = .ok bytes)
    (horder : shape.Arranges s Path.root value) :
    bytes = Token.wire value.tokens ∧
      ∀ (other : Shape) (s' : Selections) (bytes' : Bytes), other.validate = .ok () →
        other.encode value s' = .ok bytes' → other.Arranges s' Path.root value →
        bytes' = bytes := by
  have hbytes : bytes = Token.wire value.tokens :=
    (denotes_of_encode hvalid hencode horder).bytes_eq
  refine ⟨hbytes, fun other s' bytes' hvalid' hencode' horder' => ?_⟩
  calc bytes' = Token.wire value.tokens := (denotes_of_encode hvalid' hencode' horder').bytes_eq
    _ = bytes := hbytes.symm

/-- The packet is written as its tags and scalars, also under a shape without a union and with other
names for its variants. -/
theorem encode_eq_wire_tokens_packet :
    Samples.packet.validate = .ok () ∧
      Samples.packet.encode Samples.packetValue Samples.packetSelections =
        .ok Samples.packetBytes ∧
      Samples.packet.Arranges Samples.packetSelections Path.root Samples.packetValue ∧
      Samples.packetBytes = Token.wire Samples.packetValue.tokens ∧
      Samples.plainPacket.validate = .ok () ∧
      Samples.plainPacket.Arranges .empty Path.root Samples.packetValue ∧
      ∃ bytes, Samples.plainPacket.encode Samples.packetValue .empty = .ok bytes ∧
        bytes = Samples.packetBytes := by
  have hvalid : Samples.packet.validate = .ok () := by decide
  have hencode : Samples.packet.encode Samples.packetValue Samples.packetSelections =
      .ok Samples.packetBytes := by decide
  have hdecode : Samples.packet.decodeFront Samples.packetBytes Samples.packetSelections =
      .ok (Samples.packetValue, 14) := by rfl
  have horder := arranges_of_decodeFront hdecode
  have hvalid' : Samples.plainPacket.validate = .ok () := by decide
  have hencode' : Samples.plainPacket.encode Samples.packetValue .empty =
      .ok Samples.packetBytes := by decide
  have hdecode' : Samples.plainPacket.decodeFront Samples.packetBytes .empty =
      .ok (Samples.packetValue, 14) := by rfl
  have horder' := arranges_of_decodeFront hdecode'
  obtain ⟨hwire, hsame⟩ := encode_eq_wire_tokens _ _ _ _ hvalid hencode horder
  exact ⟨hvalid, hencode, horder, hwire, hvalid', horder', _, hencode',
    hsame _ _ _ hvalid' hencode' horder'⟩

end Shape

end WireParity
