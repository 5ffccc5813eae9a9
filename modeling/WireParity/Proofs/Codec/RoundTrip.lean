import WireParity.Proofs.Codec.Arrangement
import WireParity.Proofs.Value.Matching
import WireParity.Samples

/-!
# Round trips of the codec

Both round trips go through what bytes denote. An encoding denotes a value that matches the encoded
one, whatever order its structs were listed in, and it is that value which decoding gives back. In
the other direction bytes that decode denote their value, and in a well-formed shape, where every
lookup by name or tag has one answer, the value encodes to those bytes again.

Trailing bytes play no part, since a decoder hands on what it does not need.
-/

namespace WireParity

namespace Samples

/-- A part of every form: a float, an array of enums and a union. -/
def packet : Shape :=
  .struct [field "level" .f32, ⟨"steps", .array choice 2⟩, ⟨"raw", overlay⟩]

/-- The member that the union of a packet holds. -/
def packetSelections : Selections := .ofList [("raw", "bytes")]

/-- A packet in declared order. Its level is a not-a-number with a payload of its own. -/
def packetValue : Value :=
  .struct [⟨"level", .scalar (.ofBits .f32 0x7f800001)⟩,
    ⟨"steps", .array [.enum 2 (some (.struct [⟨"first", .scalar (.ofBits .u16 8)⟩,
      ⟨"second", .scalar (.ofBits .u16 7)⟩])), .enum 0 none]⟩,
    ⟨"raw", .array ([1, 2, 3, 4].map fun n => .scalar (.ofBits .u8 n))⟩]

/-- The same packet with the fields of both structs in another order. -/
def packetShuffled : Value :=
  .struct [⟨"raw", .array ([1, 2, 3, 4].map fun n => .scalar (.ofBits .u8 n))⟩,
    ⟨"level", .scalar (.ofBits .f32 0x7f800001)⟩,
    ⟨"steps", .array [.enum 2 (some (.struct [⟨"second", .scalar (.ofBits .u16 7)⟩,
      ⟨"first", .scalar (.ofBits .u16 8)⟩])), .enum 0 none]⟩]

/-- The packet on the wire. -/
def packetBytes : Bytes := [1, 0, 0x80, 0x7f, 2, 8, 0, 7, 0, 0, 1, 2, 3, 4]

end Samples

namespace Shape

variable {s : Selections} {path : String}

/-- What encoding a shape at any path amounts to: bytes that denote a matching value. -/
def WritesMatches (s : Selections) (shape : Shape) : Prop :=
  ∀ path value bytes, value.DistinctFields → shape.encodeAt s value path = .write bytes →
    ∃ back, shape.Denotes s path bytes back ∧ value.Matches back

/-- Elements are written to bytes that denote matching elements, if one element is. -/
theorem exists_denotesItems_of_emitItems {elem : Shape} (helem : elem.WritesMatches s)
    {index : Nat} {items : List Value} {bytes : Bytes}
    (hdistinct : ∀ item ∈ items, item.DistinctFields)
    (hwritten : emitItems (fun item index => elem.encodeAt s item (Path.element path index))
      index items = .write bytes) :
    ∃ backs, DenotesItems s elem path index bytes backs ∧ items.length = backs.length ∧
      ∀ (i : Nat) x y, items[i]? = some x → backs[i]? = some y → x.Matches y := by
  induction items generalizing index bytes with
  | nil =>
    rw [emitItems, Emission.write_eq_write] at hwritten
    subst hwritten
    exact ⟨[], .nil elem path index, rfl, fun i x y hx => by cases hx⟩
  | cons item items ih =>
    obtain ⟨front, rest, hitem, hitems, rfl⟩ := emitItems_cons_eq_write.mp hwritten
    rw [List.forall_mem_cons] at hdistinct
    obtain ⟨back, hback, hmatch⟩ := helem _ item front hdistinct.1 hitem
    obtain ⟨backs, hbacks, hlength, hmatches⟩ := ih hdistinct.2 hitems
    refine ⟨back :: backs, .cons hback hbacks, congrArg (· + 1) hlength, ?_⟩
    intro i x y hx hy
    cases i with
    | zero =>
      cases hx
      cases hy
      exact hmatch
    | succ i => exact hmatches i x y hx hy

/-- Declared fields are written to bytes that denote a match for the value of each name. -/
theorem exists_denotesFields_of_encodeFields {fields : List (Named Shape)}
    (hfields : ∀ field ∈ fields, field.item.WritesMatches s) {values : List (Named Value)}
    {bytes : Bytes} (hdistinct : ∀ value ∈ values, value.item.DistinctFields)
    (hwritten : encodeFields s path values fields = .write bytes) :
    ∃ backs, DenotesFields s path fields bytes backs ∧
      ∀ back ∈ backs, ∃ value, Value.fieldIn? back.name values = some value ∧
        value.Matches back.item := by
  induction fields generalizing bytes with
  | nil =>
    rw [encodeFields, Emission.write_eq_write] at hwritten
    subst hwritten
    exact ⟨[], .nil path, fun back hback => by cases hback⟩
  | cons field fields ih =>
    obtain ⟨name, shape⟩ := field
    rw [List.forall_mem_cons] at hfields
    obtain ⟨value, front, rest, hfound, hvalue, hrest, rfl⟩ :=
      encodeFields_cons_eq_write.mp hwritten
    obtain ⟨back, hback, hmatch⟩ := hfields.1 _ value front
      (hdistinct _ (Value.mem_of_fieldIn? hfound)) hvalue
    obtain ⟨backs, hbacks, hmatches⟩ := ih hfields.2 hrest
    refine ⟨⟨name, back⟩ :: backs, .cons hback hbacks, ?_⟩
    exact List.forall_mem_cons.mpr ⟨⟨value, hfound, hmatch⟩, hmatches⟩

/-- A struct matches its declared fields, each of which matches what was found under its name. -/
theorem matches_of_fieldIn? {fields : List (Named Shape)} {values backs : List (Named Value)}
    (hdistinct : (values.map Named.name).Nodup)
    (hdeclared : Value.undeclaredField? fields values = none)
    (hnames : backs.map Named.name = fields.map Named.name)
    (hbacks : ∀ back ∈ backs, ∃ value, Value.fieldIn? back.name values = some value ∧
      value.Matches back.item) : (Value.struct values).Matches (.struct backs) := by
  refine .struct (fun name => ⟨fun hname => ?_, fun hname => ?_⟩) ?_
  · obtain ⟨value, hvalue, rfl⟩ := List.mem_map.mp hname
    rw [hnames]
    exact Value.undeclaredField?_eq_none.mp hdeclared value hvalue
  · obtain ⟨back, hback, rfl⟩ := List.mem_map.mp hname
    obtain ⟨value, hfound, _⟩ := hbacks back hback
    exact List.mem_map.mpr ⟨_, Value.mem_of_fieldIn? hfound, rfl⟩
  · intro value hvalue back hback hname
    obtain ⟨found, hfound, hmatch⟩ := hbacks back hback
    rw [← hname, Value.fieldIn?_of_mem hdistinct hvalue, Option.some.injEq] at hfound
    exact hfound ▸ hmatch

/-- Every encoding denotes a value that matches the encoded one. -/
theorem writesMatches (s : Selections) (shape : Shape) : shape.WritesMatches s := by
  induction shape with
  | scalar kind =>
    intro path value bytes _ hwritten
    obtain ⟨x, rfl, rfl, rfl⟩ := encodeAt_scalar_eq_write.mp hwritten
    exact ⟨.scalar x, .scalar path x, .scalar x⟩
  | array elem count ih =>
    intro path value bytes hdistinct hwritten
    obtain ⟨items, rfl, hlength, hitems⟩ := encodeAt_array_eq_write.mp hwritten
    cases hdistinct with
    | array hdistinct =>
      obtain ⟨backs, hbacks, hsame, hmatches⟩ :=
        exists_denotesItems_of_emitItems ih hdistinct hitems
      exact ⟨.array backs, .array (hsame ▸ hlength) hbacks, .array hsame hmatches⟩
  | struct fields ih =>
    intro path value bytes hdistinct hwritten
    obtain ⟨values, rfl, hdeclared, hvalues⟩ := encodeAt_struct_eq_write.mp hwritten
    cases hdistinct with
    | struct hnames hdistinct =>
      obtain ⟨backs, hbacks, hmatches⟩ :=
        exists_denotesFields_of_encodeFields ih hdistinct hvalues
      exact ⟨.struct backs, .struct hbacks,
        matches_of_fieldIn? hnames hdeclared hbacks.names hmatches⟩
  | enum variants ih =>
    intro path value bytes hdistinct hwritten
    rcases encodeAt_enum_eq_write.mp hwritten with ⟨tag, name, rfl, hvariant, rfl⟩ |
      ⟨tag, name, shape, payload, rest, rfl, hvariant, hpayload, rfl⟩
    · exact ⟨.enum tag none, .bare hvariant, .bare tag⟩
    · cases hdistinct with
      | loaded _ hdistinct =>
        obtain ⟨back, hback, hmatch⟩ :=
          ih _ (mem_of_variantTagged? hvariant) shape rfl _ payload rest hdistinct hpayload
        exact ⟨.enum tag (some back), .loaded hvariant hback, .loaded tag hmatch⟩
  | union members ih =>
    intro path value bytes hdistinct hwritten
    obtain ⟨name, shape, hselected, hmember, hvalue⟩ := encodeAt_union_eq_write.mp hwritten
    obtain ⟨back, hback, hmatch⟩ :=
      ih _ (mem_of_memberNamed? hmember) _ value bytes hdistinct hvalue
    exact ⟨back, .union hselected hmember hback, hmatch⟩

/-- What encoding a match for a denoted value at any path amounts to: the bytes that denote it. -/
def WrittenByMatches (s : Selections) (shape : Shape) : Prop :=
  ∀ path bytes back value, shape.Denotes s path bytes back → value.Matches back →
    value.DistinctFields → shape.encodeAt s value path = .write bytes

/-- Matches for denoted elements are written as the bytes that denote those, if one element is. -/
theorem emitItems_of_denotesItems {elem : Shape} (helem : elem.WrittenByMatches s) {index : Nat}
    {bytes : Bytes} {items backs : List Value} (hbacks : DenotesItems s elem path index bytes backs)
    (hlength : items.length = backs.length)
    (hmatches : ∀ (i : Nat) x y, items[i]? = some x → backs[i]? = some y → x.Matches y)
    (hdistinct : ∀ item ∈ items, item.DistinctFields) :
    emitItems (fun item index => elem.encodeAt s item (Path.element path index)) index items =
      .write bytes := by
  induction items generalizing index bytes backs with
  | nil =>
    cases hbacks with
    | nil => rfl
    | cons => cases hlength
  | cons item items ih =>
    rw [List.forall_mem_cons] at hdistinct
    cases hbacks with
    | nil => cases hlength
    | cons hback hrest =>
      have hitem := helem _ _ _ item hback (hmatches 0 _ _ rfl rfl) hdistinct.1
      have hitems := ih hrest (Nat.succ.inj hlength) (fun i => hmatches (i + 1)) hdistinct.2
      exact emitItems_cons_eq_write.mpr ⟨_, _, hitem, hitems, rfl⟩

/-- Denoted fields are written as the bytes that denote them, in any struct that has matches for them
under their names. -/
theorem encodeFields_of_denotesFields {fields : List (Named Shape)}
    (hfields : ∀ field ∈ fields, field.item.WrittenByMatches s) {bytes : Bytes}
    {values backs : List (Named Value)} (hbacks : DenotesFields s path fields bytes backs)
    (hfound : ∀ back ∈ backs, ∃ value, Value.fieldIn? back.name values = some value ∧
      value.Matches back.item ∧ value.DistinctFields) :
    encodeFields s path values fields = .write bytes := by
  induction fields generalizing bytes backs with
  | nil =>
    cases hbacks
    rfl
  | cons field fields ih =>
    rw [List.forall_mem_cons] at hfields
    cases hbacks with
    | cons hback hrest =>
      rw [List.forall_mem_cons] at hfound
      obtain ⟨⟨value, hvalue, hmatch, hdistinct⟩, hothers⟩ := hfound
      have hwritten := hfields.1 _ _ _ value hback hmatch hdistinct
      exact encodeFields_cons_eq_write.mpr
        ⟨value, _, _, hvalue, hwritten, ih hfields.2 hrest hothers, rfl⟩

/-- Whatever matches a denoted value is encoded as the bytes that denote it. -/
theorem writtenByMatches (s : Selections) (shape : Shape) : shape.WrittenByMatches s := by
  induction shape with
  | scalar kind =>
    intro path bytes back value hback hmatch _
    cases hback with
    | scalar _ x =>
      cases hmatch
      exact encodeAt_scalar_eq_write.mpr ⟨x, rfl, rfl, rfl⟩
  | array elem count ih =>
    intro path bytes back value hback hmatch hdistinct
    cases hback with
    | array hcount hbacks =>
      cases hmatch with
      | array hlength hmatches =>
        rw [Value.distinctFields_array] at hdistinct
        have hitems := emitItems_of_denotesItems ih hbacks hlength hmatches hdistinct
        exact encodeAt_array_eq_write.mpr ⟨_, rfl, hlength.trans hcount, hitems⟩
  | struct fields ih =>
    intro path bytes back value hback hmatch hdistinct
    cases hback with
    | struct hbacks =>
      cases hmatch with
      | @struct values backs hnames hmatches =>
        rw [Value.distinctFields_struct] at hdistinct
        have hdeclared : Value.undeclaredField? fields values = none := by
          apply Value.undeclaredField?_eq_none.mpr
          intro value hvalue
          rw [← hbacks.names]
          exact (hnames value.name).mp (List.mem_map_of_mem hvalue)
        refine encodeAt_struct_eq_write.mpr ⟨values, rfl, hdeclared, ?_⟩
        apply encodeFields_of_denotesFields ih hbacks
        intro back hback
        obtain ⟨value, hfound⟩ :=
          Value.exists_fieldIn? ((hnames back.name).mpr (List.mem_map_of_mem hback))
        have hvalue := Value.mem_of_fieldIn? hfound
        exact ⟨value, hfound, hmatches _ hvalue back hback rfl, hdistinct.2 _ hvalue⟩
  | enum variants ih =>
    intro path bytes back value hback hmatch hdistinct
    cases hback with
    | bare hvariant =>
      cases hmatch
      exact encodeAt_enum_eq_write.mpr (Or.inl ⟨_, _, rfl, hvariant, rfl⟩)
    | loaded hvariant hpayload =>
      cases hmatch with
      | loaded _ hmatch =>
        have hwritten := ih _ (mem_of_variantTagged? hvariant) _ rfl _ _ _ _ hpayload hmatch
          (Value.distinctFields_loaded.mp hdistinct)
        exact encodeAt_enum_eq_write.mpr
          (Or.inr ⟨_, _, _, _, _, rfl, hvariant, hwritten, rfl⟩)
  | union members ih =>
    intro path bytes back value hback hmatch hdistinct
    cases hback with
    | union hselected hmember hback =>
      have hwritten := ih _ (mem_of_memberNamed? hmember) _ _ _ _ hback hmatch hdistinct
      exact encodeAt_union_eq_write.mpr ⟨_, _, hselected, hmember, hwritten⟩

/-- What decoding a denotation and encoding the value again amounts to: the same bytes. -/
def WritesDenotations (s : Selections) (shape : Shape) : Prop :=
  ∀ path bytes value, shape.Denotes s path bytes value → shape.encodeAt s value path = .write bytes

/-- In a well-formed shape, a denoted value is encoded as the bytes that denote it. -/
theorem writesDenotations (s : Selections) {shape : Shape} (hwell : shape.WellFormed) :
    shape.WritesDenotations s := by
  intro path bytes value hvalue
  have hdistinct := hvalue.arranges.distinctFields hwell
  exact writtenByMatches s shape path bytes value value hvalue (.refl hdistinct) hdistinct

/-- Decoding from the front succeeds exactly on bytes that begin with a denotation, which is what it
takes. -/
theorem decodeFront_eq_ok_iff {shape : Shape} {bytes : Bytes} {value : Value} {count : Nat} :
    shape.decodeFront bytes s = .ok (value, count) ↔
      ∃ front rest, bytes = front ++ rest ∧ count = front.length ∧
        shape.Denotes s Path.root front value := by
  rw [decodeFront, map_eq_ok_iff]
  refine ⟨?_, ?_⟩
  · intro h
    obtain ⟨⟨value, rest⟩, hread, hresult⟩ := h
    cases hresult
    obtain ⟨front, rfl, hfront⟩ := (readsDenotations s shape ..).mp hread
    exact ⟨front, rest, rfl, by simp, hfront⟩
  · intro h
    obtain ⟨front, rest, rfl, rfl, hfront⟩ := h
    refine ⟨(value, rest), (readsDenotations s shape ..).mpr ⟨front, rfl, hfront⟩, ?_⟩
    simp

/-- Values that are decoded in a validated shape repeat no field name. -/
theorem distinctFields_of_decodeFront {shape : Shape} {bytes : Bytes} {value : Value} {count : Nat}
    (hvalid : shape.validate = .ok ()) (hdecode : shape.decodeFront bytes s = .ok (value, count)) :
    value.DistinctFields := by
  obtain ⟨_, _, _, _, hfront⟩ := decodeFront_eq_ok_iff.mp hdecode
  exact hfront.arranges.distinctFields (wellFormed_of_validate hvalid)

/-- An encoding is a completed emission at the root. -/
theorem encode_eq_ok_iff {shape : Shape} {value : Value} {bytes : Bytes} :
    shape.encode value s = .ok bytes ↔ shape.encodeAt s value Path.root = .write bytes :=
  Emission.toExcept_eq_ok

/-- A value that bytes denote in a validated shape is encoded as these bytes. -/
theorem encode_of_denotes {shape : Shape} {bytes : Bytes} {value : Value}
    (hvalid : shape.validate = .ok ()) (hvalue : shape.Denotes s Path.root bytes value) :
    shape.encode value s = .ok bytes :=
  encode_eq_ok_iff.mpr (writesDenotations s (wellFormed_of_validate hvalid) _ bytes value hvalue)

/-- Decoding an encoding, whatever follows it, takes exactly the encoding and gives back a value
that agrees with the encoded one both ways and has the very same scalars at the same places: every
float keeps its bit pattern. -/
theorem decodeFront_encode_append (shape : Shape) (value : Value) (s : Selections)
    (bytes tail : Bytes) (hdistinct : value.DistinctFields)
    (hencode : shape.encode value s = .ok bytes) :
    ∃ back, shape.decodeFront (bytes ++ tail) s = .ok (back, bytes.length) ∧
      value.agrees back = true ∧ back.agrees value = true ∧
      ∀ way leaf, back.HasLeaf way leaf ↔ value.HasLeaf way leaf := by
  obtain ⟨back, hback, hmatch⟩ :=
    writesMatches s shape _ value bytes hdistinct (encode_eq_ok_iff.mp hencode)
  refine ⟨back, ?_, hmatch.agrees, hmatch.symm.agrees, fun way leaf => hmatch.symm.hasLeaf_iff⟩
  exact decodeFront_eq_ok_iff.mpr ⟨bytes, tail, rfl, rfl, hback⟩

/-- The shuffled packet comes back from its encoding with two bytes after it. -/
theorem decodeFront_encode_append_packet :
    Samples.packetShuffled.DistinctFields ∧
      Samples.packet.encode Samples.packetShuffled Samples.packetSelections =
        .ok Samples.packetBytes ∧
      ∃ back, Samples.packet.decodeFront (Samples.packetBytes ++ [9, 9]) Samples.packetSelections =
          .ok (back, 14) ∧
        Samples.packetShuffled.agrees back = true ∧ back.agrees Samples.packetShuffled = true ∧
        ∀ way leaf, back.HasLeaf way leaf ↔ Samples.packetShuffled.HasLeaf way leaf := by
  have hdistinct : Samples.packetShuffled.DistinctFields := by decide
  have hencode : Samples.packet.encode Samples.packetShuffled Samples.packetSelections =
      .ok Samples.packetBytes := by decide
  exact ⟨hdistinct, hencode, decodeFront_encode_append Samples.packet Samples.packetShuffled
    Samples.packetSelections Samples.packetBytes [9, 9] hdistinct hencode⟩

/-- Bytes that decode in a well-formed shape are long enough, and the value encodes to exactly the
bytes that were taken. -/
theorem encode_of_decodeFront (shape : Shape) (bytes : Bytes) (s : Selections) (value : Value)
    (count : Nat) (hvalid : shape.validate = .ok ())
    (hdecode : shape.decodeFront bytes s = .ok (value, count)) :
    count ≤ bytes.length ∧ shape.encode value s = .ok (bytes.take count) := by
  obtain ⟨front, rest, rfl, rfl, hfront⟩ := decodeFront_eq_ok_iff.mp hdecode
  have hwritten := writesDenotations s (wellFormed_of_validate hvalid) _ _ _ hfront
  refine ⟨?_, ?_⟩
  · rw [List.length_append]
    exact Nat.le_add_right _ _
  · rw [List.take_left]
    exact encode_eq_ok_iff.mpr hwritten

/-- A packet that is decoded from the front of some bytes encodes to what was taken. -/
theorem encode_of_decodeFront_packet :
    Samples.packet.validate = .ok () ∧
      Samples.packet.decodeFront (Samples.packetBytes ++ [9, 9]) Samples.packetSelections =
        .ok (Samples.packetValue, 14) ∧
      14 ≤ (Samples.packetBytes ++ [9, 9]).length ∧
      Samples.packet.encode Samples.packetValue Samples.packetSelections =
        .ok ((Samples.packetBytes ++ [9, 9]).take 14) := by
  have hvalid : Samples.packet.validate = .ok () := by decide
  have hdecode : Samples.packet.decodeFront (Samples.packetBytes ++ [9, 9])
      Samples.packetSelections = .ok (Samples.packetValue, 14) := by rfl
  exact ⟨hvalid, hdecode, encode_of_decodeFront Samples.packet (Samples.packetBytes ++ [9, 9])
    Samples.packetSelections Samples.packetValue 14 hvalid hdecode⟩

end Shape

end WireParity
