import WireParity.Parity.Adapter
import WireParity.Proofs.Codec.Tokens

/-!
# The opposite byte order

A codec of the opposite byte order is the canonical codec with every scalar swapped before it is
encoded and after it is decoded. Swapping keeps kinds, so a value is encoded swapped wherever it is
encoded at all, and what it is encoded as has the same tokens in the same places: tags as they were,
and scalars with their bytes from last to first. Patterns of floats are moved like all others.

An encoder looks fields up by name and so reads each name once, however often a value repeats it.
That what it writes follows the leaves of some denoted value holds for such values, too. Only for
decoding must names be distinct, since a repeated field is not there to be compared.
-/

namespace WireParity

namespace Scalar

/-- A swapped scalar is of the same kind. -/
theorem kind_swap : KeepsKinds swap := fun _ => rfl

/-- A swapped scalar has the same bytes in reverse order. -/
theorem bytes_swap (x : Scalar) : x.swap.bytes = x.bytes.reverse :=
  bytes_ofBytes (by rw [List.length_reverse, x.length_bytes])

/-- Swapping a scalar twice changes nothing. -/
@[simp] theorem swap_swap (x : Scalar) : x.swap.swap = x := by
  have hbytes : x.swap.bytes.reverse = x.bytes := by rw [bytes_swap, List.reverse_reverse]
  rw [swap, hbytes]
  exact x.ofBytes_bytes

end Scalar

namespace Token

/-- A token in the opposite byte order: a tag as it is, and a scalar from its last byte to its
first. -/
def reversed : Token → Bytes
  | tag t => [t]
  | scalar x => x.bytes.reverse

/-- A token is as long in either byte order. -/
theorem length_reversed (token : Token) : token.reversed.length = token.bytes.length := by
  cases token with
  | tag t => rfl
  | scalar x => exact List.length_reverse

/-- A token with its scalar swapped is written in the opposite byte order. -/
theorem bytes_mapScalar_swap (token : Token) :
    (token.mapScalar Scalar.swap).bytes = token.reversed := by
  cases token with
  | tag t => rfl
  | scalar x => exact x.bytes_swap

/-- Tokens with their scalars swapped are each written in the opposite byte order. -/
theorem wire_map_swap (tokens : List Token) :
    wire (tokens.map (mapScalar Scalar.swap)) = tokens.flatMap reversed := by
  rw [wire, List.flatMap_map]
  exact List.flatMap_congr fun token _ => token.bytes_mapScalar_swap

/-- Tokens are as long in either byte order. -/
theorem length_flatMap_reversed (tokens : List Token) :
    (tokens.flatMap reversed).length = (wire tokens).length := by
  rw [wire, List.length_flatMap, List.length_flatMap]
  exact congrArg List.sum (List.map_congr_left fun token _ => token.length_reversed)

end Token

namespace Value

/-- The elements of an array are swapped one by one. -/
private theorem swapItems_eq_mapItems {items : List Value}
    (hitems : ∀ item ∈ items, item.swap = item.mapScalars Scalar.swap) :
    swapItems items = mapItems Scalar.swap items := by
  induction items with
  | nil => rfl
  | cons item rest ih =>
    rw [List.forall_mem_cons] at hitems
    rw [swapItems, mapItems, hitems.1, ih hitems.2]

/-- The fields of a struct are swapped one by one. -/
private theorem swapFields_eq_mapFields {fields : List (Named Value)}
    (hfields : ∀ field ∈ fields, field.item.swap = field.item.mapScalars Scalar.swap) :
    swapFields fields = mapFields Scalar.swap fields := by
  induction fields with
  | nil => rfl
  | cons field rest ih =>
    rw [List.forall_mem_cons] at hfields
    rw [swapFields, mapFields, hfields.1, ih hfields.2]

/-- Swapping a value replaces each of its scalars by the swapped one. -/
theorem swap_eq_mapScalars (value : Value) : value.swap = value.mapScalars Scalar.swap := by
  induction value with
  | scalar x => rfl
  | array items ih => rw [swap, mapScalars, swapItems_eq_mapItems ih]
  | struct fields ih => rw [swap, mapScalars, swapFields_eq_mapFields ih]
  | bare tag => rfl
  | loaded tag payload ih => rw [swap, mapScalars, ih]

variable {f g : Scalar → Scalar}

/-- Replacing the scalars of a value and then undoing it for each changes nothing. -/
theorem mapScalars_of_inverse (hundo : ∀ x, g (f x) = x) (value : Value) :
    (value.mapScalars f).mapScalars g = value := by
  induction value with
  | scalar x => rw [mapScalars, mapScalars, hundo]
  | array items ih =>
    rw [mapScalars, mapScalars, mapItems_eq, mapItems_eq, List.map_map]
    exact congrArg Value.array ((List.map_congr_left ih).trans (List.map_id' items))
  | struct fields ih =>
    have hfields : ∀ field ∈ fields,
        (⟨field.name, (field.item.mapScalars f).mapScalars g⟩ : Named Value) = field := by
      intro field hfield
      rw [ih field hfield]
    rw [mapScalars, mapScalars, mapFields_eq, mapFields_eq, List.map_map]
    exact congrArg Value.struct ((List.map_congr_left hfields).trans (List.map_id' fields))
  | bare tag => rfl
  | loaded tag payload ih => rw [mapScalars, mapScalars, ih]

/-- Swapping a value twice changes nothing. -/
@[simp] theorem swap_swap (value : Value) : value.swap.swap = value := by
  rw [swap_eq_mapScalars, swap_eq_mapScalars]
  exact mapScalars_of_inverse Scalar.swap_swap value

/-- Among replaced fields, a name finds the replacement of what it found before. -/
theorem fieldIn?_mapFields (name : String) (fields : List (Named Value)) :
    fieldIn? name (mapFields f fields) = (fieldIn? name fields).map (mapScalars f) := by
  induction fields with
  | nil => rfl
  | cons field rest ih =>
    obtain ⟨other, value⟩ := field
    rw [mapFields, fieldIn?, fieldIn?, ih]
    split <;> rfl

/-- Replaced fields are declared where the fields are. -/
theorem undeclaredField?_mapFields_eq_none {declared : List (Named Shape)}
    {fields : List (Named Value)} (hdeclared : undeclaredField? declared fields = none) :
    undeclaredField? declared (mapFields f fields) = none := by
  rw [undeclaredField?_eq_none] at hdeclared ⊢
  intro field hfield
  obtain ⟨old, hold, rfl⟩ := mem_mapFields f hfield
  exact hdeclared old hold

end Value

namespace Shape

variable {s : Selections}

/-- What encoding at any path amounts to: the value that is denoted has the tokens that are written,
and goes on having them when scalars are replaced by others of their kinds. -/
def WritesTokens (s : Selections) (shape : Shape) : Prop :=
  ∀ path value bytes, shape.encodeAt s value path = .write bytes →
    ∃ back, shape.Denotes s path bytes back ∧ ∀ f, KeepsKinds f →
      shape.encodeAt s (value.mapScalars f) path =
        .write (Token.wire (back.tokens.map (Token.mapScalar f)))

/-- Written elements go by the tokens of denoted ones, if one element does. -/
theorem exists_itemTokens_of_emitItems {elem : Shape} (helem : elem.WritesTokens s)
    {path : String} {index : Nat} {items : List Value} {bytes : Bytes}
    (hwritten : emitItems (fun item index => elem.encodeAt s item (Path.element path index))
      index items = .write bytes) :
    ∃ backs, backs.length = items.length ∧ DenotesItems s elem path index bytes backs ∧
      ∀ f, KeepsKinds f →
        emitItems (fun item index => elem.encodeAt s item (Path.element path index)) index
          (Value.mapItems f items) =
            .write (Token.wire ((Value.itemTokens backs).map (Token.mapScalar f))) := by
  induction items generalizing index bytes with
  | nil =>
    cases Emission.write_eq_write.mp hwritten
    exact ⟨[], rfl, .nil elem path index, fun _ _ => rfl⟩
  | cons item rest ih =>
    obtain ⟨front, tail, hfront, htail, rfl⟩ := emitItems_cons_eq_write.mp hwritten
    obtain ⟨back, hback, hitem⟩ := helem _ item front hfront
    obtain ⟨backs, hlength, hbacks, hrest⟩ := ih htail
    refine ⟨back :: backs, congrArg (· + 1) hlength, .cons hback hbacks, fun f hf => ?_⟩
    rw [Value.itemTokens, List.map_append, Token.wire_append, Value.mapItems]
    exact emitItems_cons_eq_write.mpr ⟨_, _, hitem f hf, hrest f hf, rfl⟩

/-- Written fields go by the tokens of denoted ones, if each field's shape does. -/
theorem exists_fieldTokens_of_encodeFields {fields : List (Named Shape)}
    (hfields : ∀ field ∈ fields, field.item.WritesTokens s) {path : String}
    {values : List (Named Value)} {bytes : Bytes}
    (hwritten : encodeFields s path values fields = .write bytes) :
    ∃ backs, DenotesFields s path fields bytes backs ∧ ∀ f, KeepsKinds f →
      encodeFields s path (Value.mapFields f values) fields =
        .write (Token.wire ((Value.fieldTokens backs).map (Token.mapScalar f))) := by
  induction fields generalizing bytes with
  | nil =>
    cases Emission.write_eq_write.mp hwritten
    exact ⟨[], .nil path, fun _ _ => rfl⟩
  | cons field rest ih =>
    obtain ⟨name, shape⟩ := field
    rw [List.forall_mem_cons] at hfields
    obtain ⟨value, front, tail, hvalue, hfront, htail, rfl⟩ :=
      encodeFields_cons_eq_write.mp hwritten
    obtain ⟨back, hback, hfirst⟩ := hfields.1 _ value front hfront
    obtain ⟨backs, hbacks, hrest⟩ := ih hfields.2 htail
    refine ⟨⟨name, back⟩ :: backs, .cons hback hbacks, fun f hf => ?_⟩
    have hfound : Value.fieldIn? name (Value.mapFields f values) = some (value.mapScalars f) := by
      rw [Value.fieldIn?_mapFields, hvalue, Option.map_some]
    rw [Value.fieldTokens, List.map_append, Token.wire_append]
    exact encodeFields_cons_eq_write.mpr ⟨_, _, _, hfound, hfirst f hf, hrest f hf, rfl⟩

/-- Whatever is encoded goes by the tokens of a denoted value, and so does the same value with other
scalars of the same kinds. -/
theorem writesTokens (s : Selections) (shape : Shape) : shape.WritesTokens s := by
  induction shape with
  | scalar kind =>
    intro path value bytes hwritten
    obtain ⟨x, rfl, rfl, rfl⟩ := encodeAt_scalar_eq_write.mp hwritten
    refine ⟨.scalar x, .scalar path x, fun f hf => ?_⟩
    exact encodeAt_scalar_eq_write.mpr ⟨f x, rfl, hf x, Token.wire_singleton (.scalar (f x))⟩
  | array elem count ih =>
    intro path value bytes hwritten
    obtain ⟨items, rfl, hcount, hitems⟩ := encodeAt_array_eq_write.mp hwritten
    obtain ⟨backs, hlength, hbacks, hmapped⟩ := exists_itemTokens_of_emitItems ih hitems
    -- Replacing scalars keeps the number of elements, which is checked before any is written.
    refine ⟨.array backs, .array (hlength.trans hcount) hbacks, fun f hf => ?_⟩
    refine encodeAt_array_eq_write.mpr ⟨_, rfl, ?_, hmapped f hf⟩
    rw [Value.mapItems_eq, List.length_map, hcount]
  | struct fields ih =>
    intro path value bytes hwritten
    obtain ⟨values, rfl, hdeclared, hvalues⟩ := encodeAt_struct_eq_write.mp hwritten
    obtain ⟨backs, hbacks, hmapped⟩ := exists_fieldTokens_of_encodeFields ih hvalues
    refine ⟨.struct backs, .struct hbacks, fun f hf => ?_⟩
    exact encodeAt_struct_eq_write.mpr
      ⟨_, rfl, Value.undeclaredField?_mapFields_eq_none hdeclared, hmapped f hf⟩
  | enum variants ih =>
    intro path value bytes hwritten
    rcases encodeAt_enum_eq_write.mp hwritten with ⟨tag, name, rfl, hvariant, rfl⟩ |
      ⟨tag, name, shape, payload, rest, rfl, hvariant, hpayload, rfl⟩
    · -- A variant without a payload is its tag, and no scalar of it is there to be replaced.
      exact ⟨.enum tag none, .bare hvariant, fun f hf => hwritten⟩
    · obtain ⟨back, hback, hmapped⟩ :=
        ih _ (mem_of_variantTagged? hvariant) shape rfl _ payload rest hpayload
      refine ⟨.enum tag (some back), .loaded hvariant hback, fun f hf => ?_⟩
      exact encodeAt_enum_eq_write.mpr
        (Or.inr ⟨tag, name, shape, _, _, rfl, hvariant, hmapped f hf, rfl⟩)
  | union members ih =>
    intro path value bytes hwritten
    obtain ⟨name, shape, hselected, hmember, hvalue⟩ := encodeAt_union_eq_write.mp hwritten
    obtain ⟨back, hback, hmapped⟩ := ih _ (mem_of_memberNamed? hmember) _ value bytes hvalue
    refine ⟨back, .union hselected hmember hback, fun f hf => ?_⟩
    exact encodeAt_union_eq_write.mpr ⟨name, shape, hselected, hmember, hmapped f hf⟩

variable {shape : Shape} {value : Value} {bytes : Bytes}

/-- A swapped value is encoded as the tokens of the encoding in the opposite byte order. -/
theorem exists_encode_swap (hencode : shape.encode value s = .ok bytes) :
    ∃ back, shape.Denotes s Path.root bytes back ∧
      shape.encode value.swap s = .ok (back.tokens.flatMap Token.reversed) := by
  obtain ⟨back, hback, hmapped⟩ := writesTokens s shape _ value bytes (encode_eq_ok_iff.mp hencode)
  refine ⟨back, hback, ?_⟩
  rw [encode_eq_ok_iff, Value.swap_eq_mapScalars, ← Token.wire_map_swap]
  exact hmapped Scalar.swap Scalar.kind_swap

/-- Bytes that denote a value are decoded as it, to the last. -/
theorem decodeFront_of_denotes {back : Value} (hback : shape.Denotes s Path.root bytes back) :
    shape.decodeFront bytes s = .ok (back, bytes.length) :=
  decodeFront_eq_ok_iff.mpr ⟨bytes, [], (List.append_nil bytes).symm, rfl, hback⟩

/-- What is encoded from a swapped value is decoded to one that matches the value when it is swapped
back. -/
theorem exists_decode_of_encode_swap {swapped : Bytes} (hdistinct : value.DistinctFields)
    (hswapped : shape.encode value.swap s = .ok swapped) :
    ∃ back, shape.decode swapped s = .ok back ∧ value.Matches back.swap := by
  have hdistinct' : value.swap.DistinctFields :=
    value.swap_eq_mapScalars ▸ hdistinct.mapScalars Scalar.swap
  obtain ⟨back, hback, hmatch⟩ := (encode_eq_ok_iff_denotes hdistinct').mp hswapped
  refine ⟨back, ?_, ?_⟩
  · rw [decode, decodeFront_of_denotes hback]
    rfl
  · have hmatch' := hmatch.mapScalars Scalar.swap
    rwa [← Value.swap_eq_mapScalars, ← Value.swap_eq_mapScalars, Value.swap_swap] at hmatch'

/-- Swapping is undone by swapping. Whatever has an encoding has one when it is swapped, and it is
the same with every scalar from its last byte to its first and every tag in its place; where the
scalars are is told by the value that the canonical codec decodes from the encoding. The codec of
the opposite byte order writes just this. If no struct repeats a field name, it reads it back as a
value that agrees with the original both ways and has the very same scalars at the same places. -/
theorem encode_swap (shape : Shape) (value : Value) (s : Selections) (bytes : Bytes)
    (hencode : shape.encode value s = .ok bytes) :
    value.swap.swap = value ∧
    ∃ back swapped, shape.decodeFront bytes s = .ok (back, bytes.length) ∧
      bytes = Token.wire back.tokens ∧
      shape.encode value.swap s = .ok swapped ∧
      swapped = back.tokens.flatMap Token.reversed ∧ swapped.length = bytes.length ∧
      ∀ name, (Adapter.swapped name).encode shape value s = .answer (.ok swapped) ∧
        (value.DistinctFields →
          ∃ read, (Adapter.swapped name).decode shape swapped s = .answer (.ok read) ∧
            value.agrees read = true ∧ read.agrees value = true ∧
            ∀ way leaf, read.HasLeaf way leaf ↔ value.HasLeaf way leaf) := by
  obtain ⟨back, hback, hswapped⟩ := exists_encode_swap hencode
  have hbytes := hback.bytes_eq
  refine ⟨value.swap_swap, back, _, decodeFront_of_denotes hback, hbytes, hswapped, rfl, ?_,
    fun name => ⟨?_, fun hdistinct => ?_⟩⟩
  · rw [Token.length_flatMap_reversed, ← hbytes]
  · change Call.answer (Adapter.reported (shape.encode value.swap s)) = _
    rw [hswapped]
    rfl
  · obtain ⟨read, hread, hmatch⟩ := exists_decode_of_encode_swap hdistinct hswapped
    refine ⟨read.swap, ?_, hmatch.agrees, hmatch.symm.agrees,
      fun way leaf => hmatch.symm.hasLeaf_iff⟩
    change Call.answer (Adapter.reported ((shape.decode _ s).map Value.swap)) = _
    rw [hread]
    rfl

/-- The shuffled packet is encoded with its level and its steps turned around in place. Its level is
a not-a-number, and is a number when it is swapped. -/
theorem encode_swap_packet :
    Samples.packet.encode Samples.packetShuffled Samples.packetSelections =
        .ok Samples.packetBytes ∧
      Samples.packetShuffled.DistinctFields ∧
      (Adapter.swapped "big-endian").encode Samples.packet Samples.packetShuffled
          Samples.packetSelections =
        .answer (.ok [0x7f, 0x80, 0, 1, 2, 0, 8, 0, 7, 0, 1, 2, 3, 4]) ∧
      ∃ read, (Adapter.swapped "big-endian").decode Samples.packet
          [0x7f, 0x80, 0, 1, 2, 0, 8, 0, 7, 0, 1, 2, 3, 4] Samples.packetSelections =
            .answer (.ok read) ∧
        Samples.packetShuffled.agrees read = true ∧ read.agrees Samples.packetShuffled = true := by
  have hencode : Samples.packet.encode Samples.packetShuffled Samples.packetSelections =
      .ok Samples.packetBytes := by decide
  have hdistinct : Samples.packetShuffled.DistinctFields := by decide
  have hexpected : Samples.packet.encode Samples.packetShuffled.swap Samples.packetSelections =
      .ok [0x7f, 0x80, 0, 1, 2, 0, 8, 0, 7, 0, 1, 2, 3, 4] := by decide
  obtain ⟨_, _, swapped, _, _, hswapped, _, _, hcodec⟩ := encode_swap Samples.packet
    Samples.packetShuffled Samples.packetSelections Samples.packetBytes hencode
  cases hswapped.symm.trans hexpected
  obtain ⟨hwrites, hreads⟩ := hcodec "big-endian"
  obtain ⟨read, hread, hagrees, hagrees', _⟩ := hreads hdistinct
  exact ⟨hencode, hdistinct, hwrites, read, hread, hagrees, hagrees'⟩

end Shape

end WireParity
