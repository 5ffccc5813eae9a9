import Mathlib.Algebra.Ring.Nat
import Mathlib.Data.List.Forall2
import WireParity.Proofs.Codec.Decoding
import WireParity.Proofs.Codec.Encoding
import WireParity.Proofs.Shape.Size
import WireParity.Proofs.Value.Fields
import WireParity.Proofs.Value.Scalar
import WireParity.Shape.Offsets
import WireParity.WireModel

/-!
# The two accounts agree

On structs of scalars the codec does what the account on words says: fields lie at the offsets of
the account, a value is encoded as the words of its scalars one after another, and decoding reads
the words at the offsets and stops at the first that is not all there.

The codec hands the rest of the bytes from field to field, and the account looks at each offset of
the whole. An induction over fields therefore starts at any offset, with the bytes from there on in
the hands of the codec.
-/

namespace WireParity

namespace ScalarKind

/-- No scalar is empty. -/
theorem width_pos (kind : ScalarKind) : 0 < kind.width := by
  cases kind <;> decide

/-- Scalars fit in a word. -/
theorem width_le_eight (kind : ScalarKind) : kind.width ≤ 8 := by
  cases kind <;> decide

end ScalarKind

namespace WireModel

/-! ## Scalars -/

/-- Bytes that are taken from a word by shifts are those of its number. -/
theorem encodeScalar_eq (bits : UInt64) (width : Nat) :
    encodeScalar bits width = LittleEndian.ofNat width bits.toNat := by
  induction width generalizing bits with
  | zero => rfl
  | succ width ih =>
    have hlow : bits.toUInt8 = UInt8.ofNat (bits.toNat % 256) := by
      apply UInt8.toNat.inj
      simp [UInt8.toNat_ofNat']
    have hhigh : (bits >>> 8).toNat = bits.toNat / 256 := by
      rw [UInt64.toNat_shiftRight]
      exact Nat.shiftRight_eq_div_pow bits.toNat 8
    rw [encodeScalar, LittleEndian.ofNat, ih, hlow, hhigh]

/-- The bytes of a scalar are those of the word of its pattern. -/
theorem encodeScalar_bits (x : Scalar) :
    encodeScalar (UInt64.ofNat x.bits) x.kind.width = x.bytes := by
  have hbits : x.bits < 2 ^ 64 :=
    Nat.lt_of_lt_of_le x.fits
      (Nat.pow_le_pow_right (n := 256) (j := 8) (by decide) x.kind.width_le_eight)
  rw [encodeScalar_eq, UInt64.toNat_ofNat', Nat.mod_eq_of_lt hbits, Scalar.bytes]

/-- Bytes that are put together by shifts make the word of their number. -/
theorem toNat_joinBytes {bytes : Bytes} (hlength : bytes.length ≤ 8) :
    (joinBytes bytes).toNat = LittleEndian.toNat bytes := by
  induction bytes with
  | nil => rfl
  | cons b rest ih =>
    rw [List.length_cons] at hlength
    have hrest := ih (by omega)
    have hb := b.toNat_lt
    have hvalue : LittleEndian.toNat rest < 2 ^ 56 :=
      Nat.lt_of_lt_of_le (LittleEndian.toNat_lt rest)
        (Nat.pow_le_pow_right (n := 256) (j := 7) (by decide) (by omega))
    have hshift : (joinBytes rest <<< 8).toNat = LittleEndian.toNat rest * 2 ^ 8 := by
      rw [UInt64.toNat_shiftLeft, hrest]
      change LittleEndian.toNat rest <<< 8 % 2 ^ 64 = _
      rw [Nat.shiftLeft_eq]
      omega
    -- the low byte and the shifted rest have no bit in common, so that taking both is adding
    rw [joinBytes, UInt64.toNat_or, hshift, UInt8.toNat_toUInt64, Nat.or_comm, ← Nat.shiftLeft_eq,
      ← Nat.shiftLeft_add_eq_or_of_lt hb, Nat.shiftLeft_eq, LittleEndian.toNat]
    omega

/-- A word is read exactly where there are bytes enough. -/
theorem decodeScalar_eq_ok {bytes : Bytes} {width : Nat} {word : UInt64} :
    decodeScalar bytes width = .ok word ↔
      width ≤ bytes.length ∧ word = joinBytes (bytes.take width) := by
  by_cases hshort : bytes.length < width
  · simp [decodeScalar, hshort, Nat.not_le_of_lt hshort]
  · simp [decodeScalar, hshort, Nat.le_of_not_lt hshort, eq_comm]

/-- Where bytes are missing it is said how many are needed and how many there are. -/
theorem decodeScalar_eq_error {bytes : Bytes} {width : Nat} {short : Truncated} :
    decodeScalar bytes width = .error short ↔
      bytes.length < width ∧ short = ⟨width, bytes.length⟩ := by
  by_cases hshort : bytes.length < width
  · simp [decodeScalar, hshort, eq_comm]
  · simp [decodeScalar, hshort]

/-- The scalar of the bytes from which a word is read is the one with the word as its pattern. -/
theorem eq_ofBytes_iff {bytes : Bytes} {kind : ScalarKind} {word : UInt64} {x : Scalar}
    (hword : decodeScalar bytes kind.width = .ok word) :
    x = Scalar.ofBytes kind (bytes.take kind.width) ↔ x.kind = kind ∧ x.bits = word.toNat := by
  obtain ⟨hlength, rfl⟩ := decodeScalar_eq_ok.mp hword
  have htaken : (bytes.take kind.width).length = kind.width := List.length_take_of_le hlength
  have hnumber : (joinBytes (bytes.take kind.width)).toNat =
      LittleEndian.toNat (bytes.take kind.width) :=
    toNat_joinBytes (Nat.le_trans (Nat.le_of_eq htaken) kind.width_le_eight)
  have hfits := LittleEndian.toNat_lt (bytes.take kind.width)
  rw [htaken] at hfits
  rw [hnumber, Scalar.ofBytes, Scalar.ofBits]
  cases x with
  | mk other bits fits => rw [Scalar.mk.injEq, Nat.mod_eq_of_lt hfits]

end WireModel

namespace Shape

variable {s : Selections} {path : String} {bytes rest : Bytes} {value : Value}

/-- A scalar is read where a word is, and as the word. -/
theorem decodeAt_scalar_eq_ok_word {kind : ScalarKind} :
    (Shape.scalar kind).decodeAt s path bytes = .ok (value, rest) ↔
      ∃ word x, WireModel.decodeScalar bytes kind.width = .ok word ∧
        value = .scalar x ∧ x.kind = kind ∧ x.bits = word.toNat ∧ rest = bytes.drop kind.width := by
  rw [decodeAt_scalar_eq_ok]
  refine ⟨?_, ?_⟩
  · intro h
    obtain ⟨front, rfl, hlength, rfl⟩ := h
    have hword : WireModel.decodeScalar (front ++ rest) kind.width =
        .ok (WireModel.joinBytes front) := by
      refine WireModel.decodeScalar_eq_ok.mpr ⟨?_, ?_⟩
      · rw [List.length_append]
        omega
      · rw [← hlength, List.take_left]
    have hscalar := (WireModel.eq_ofBytes_iff hword (x := Scalar.ofBytes kind front)).mp
      (by rw [← hlength, List.take_left])
    exact ⟨_, _, hword, rfl, hscalar.1, hscalar.2, by rw [← hlength, List.drop_left]⟩
  · intro h
    obtain ⟨word, x, hword, rfl, hkind, hbits, rfl⟩ := h
    have hlength := (WireModel.decodeScalar_eq_ok.mp hword).1
    refine ⟨bytes.take kind.width, (List.take_append_drop _ _).symm,
      List.length_take_of_le hlength, ?_⟩
    rw [(WireModel.eq_ofBytes_iff hword).mpr ⟨hkind, hbits⟩]

/-- A scalar is refused where a word is, with the same numbers of bytes. -/
theorem decodeAt_scalar_eq_error_word {kind : ScalarKind} {error : CodecError} :
    (Shape.scalar kind).decodeAt s path bytes = .error error ↔
      ∃ short, WireModel.decodeScalar bytes kind.width = .error short ∧
        error = ⟨path, .truncatedInput short.needed short.available⟩ := by
  rw [decodeAt_scalar_eq_error]
  refine ⟨?_, ?_⟩
  · intro h
    exact ⟨⟨kind.width, bytes.length⟩, WireModel.decodeScalar_eq_error.mpr ⟨h.1, rfl⟩, h.2⟩
  · intro h
    obtain ⟨short, hshort, rfl⟩ := h
    obtain ⟨hlength, rfl⟩ := WireModel.decodeScalar_eq_error.mp hshort
    exact ⟨hlength, rfl⟩

end Shape

/-! ## Structs of scalars -/

/-- Fields of the given names and kinds. -/
def scalarFields (fields : List (Named ScalarKind)) : List (Named Shape) :=
  fields.map fun field => ⟨field.name, .scalar field.item⟩

@[simp] theorem scalarFields_cons (field : Named ScalarKind) (fields : List (Named ScalarKind)) :
    scalarFields (field :: fields) = ⟨field.name, .scalar field.item⟩ :: scalarFields fields := rfl

namespace WireModel

variable {s : Selections} {fields : List (Named ScalarKind)} {bytes : Bytes}

/-- The widths of fields. -/
def widths (fields : List (Named ScalarKind)) : List Nat := fields.map fun field => field.item.width

/-- Fields with their offsets, the first of which is given. -/
def placesFrom (offset : Nat) (fields : List (Named ScalarKind)) : List (Named ScalarKind × Nat) :=
  fields.zip (denseOffsetsFrom offset (widths fields))

/-- Fields with their offsets. -/
def places (fields : List (Named ScalarKind)) : List (Named ScalarKind × Nat) :=
  fields.zip (denseOffsets (widths fields))

/-- The word of a field, read at its offset. -/
def wordAt (bytes : Bytes) (place : Named ScalarKind × Nat) : Except Truncated UInt64 :=
  decodeScalar (bytes.drop place.2) place.1.item.width

/-- A field with a value has the scalar of its kind whose pattern is its word. -/
def ReadsAs (bytes : Bytes) (place : Named ScalarKind × Nat) (field : Named Value) : Prop :=
  ∃ word x, wordAt bytes place = .ok word ∧ field = ⟨place.1.name, .scalar x⟩ ∧
    x.kind = place.1.item ∧ x.bits = word.toNat

/-- What is found under the name of a declared field is a scalar of its kind. -/
def Holds (values : List (Named Value)) (field : Named ScalarKind) (x : Scalar) : Prop :=
  Value.fieldIn? field.name values = some (.scalar x) ∧ x.kind = field.item

/-- A value has the declared fields and no others, and a scalar of the declared kind in each. -/
def Records (fields : List (Named ScalarKind)) (value : Value) (scalars : List Scalar) : Prop :=
  ∃ values, value = .struct values ∧
    (∀ field ∈ values, field.name ∈ fields.map Named.name) ∧
    List.Forall₂ (Holds values) fields scalars

/-- A field is the first of those listed whose word is not all there. -/
def FirstShort (bytes : Bytes) (placed : List (Named ScalarKind × Nat))
    (place : Named ScalarKind × Nat) (short : Truncated) : Prop :=
  ∃ before after, placed = before ++ place :: after ∧
    (∀ earlier ∈ before, ∃ word, wordAt bytes earlier = .ok word) ∧
    wordAt bytes place = .error short

@[simp] theorem placesFrom_nil (offset : Nat) : placesFrom offset [] = [] := rfl

@[simp] theorem placesFrom_cons (offset : Nat) (field : Named ScalarKind) :
    placesFrom offset (field :: fields) =
      (field, offset) :: placesFrom (offset + field.item.width) fields := rfl

/-- The first width is added to where the others start. -/
theorem add_sum_widths_cons (offset : Nat) (field : Named ScalarKind) :
    offset + (widths (field :: fields)).sum =
      offset + field.item.width + (widths fields).sum :=
  (Nat.add_assoc ..).symm

/-- The offsets of fields. -/
theorem map_snd_placesFrom (offset : Nat) :
    (placesFrom offset fields).map Prod.snd = denseOffsetsFrom offset (widths fields) := by
  induction fields generalizing offset with
  | nil => rfl
  | cons field fields ih =>
    rw [placesFrom_cons, List.map_cons, ih]
    rfl

/-- No field is without an offset. -/
theorem map_fst_placesFrom {β : Type} (f : Named ScalarKind → β) (offset : Nat) :
    ((placesFrom offset fields).map fun place => f place.1) = fields.map f := by
  induction fields generalizing offset with
  | nil => rfl
  | cons field fields ih => rw [placesFrom_cons, List.map_cons, List.map_cons, ih]

/-- The first fields have the first offsets. -/
theorem placesFrom_take (count offset : Nat) :
    placesFrom offset (fields.take count) = (placesFrom offset fields).take count := by
  induction fields generalizing count offset with
  | nil => simp
  | cons field fields ih =>
    cases count with
    | zero => rfl
    | succ count =>
      rw [List.take_succ_cons, placesFrom_cons, placesFrom_cons, List.take_succ_cons, ih]

/-- The first fields lie where they do among all. -/
theorem places_take (count : Nat) : places (fields.take count) = (places fields).take count :=
  placesFrom_take count 0

/-- No field starts before the first. -/
theorem offset_le {offset : Nat} {place : Named ScalarKind × Nat}
    (hplace : place ∈ placesFrom offset fields) : offset ≤ place.2 := by
  induction fields generalizing offset with
  | nil => cases hplace
  | cons field fields ih =>
    rcases List.mem_cons.mp hplace with rfl | hlater
    · exact Nat.le_refl offset
    · exact Nat.le_trans (Nat.le_add_right offset field.item.width) (ih hlater)

/-- A field ends before every later one starts. -/
theorem pairwise_placesFrom (offset : Nat) :
    (placesFrom offset fields).Pairwise fun earlier later =>
      earlier.2 + earlier.1.item.width ≤ later.2 := by
  induction fields generalizing offset with
  | nil => exact List.Pairwise.nil
  | cons field fields ih => exact List.pairwise_cons.mpr ⟨fun _ hlater => offset_le hlater, ih _⟩

/-- There is a word where the bytes reach to the end of the field. -/
theorem exists_wordAt_iff {place : Named ScalarKind × Nat} :
    (∃ word, wordAt bytes place = .ok word) ↔ place.2 + place.1.item.width ≤ bytes.length := by
  have hwidth := place.1.item.width_pos
  simp only [wordAt, decodeScalar_eq_ok, List.length_drop, exists_and_left, exists_eq, and_true]
  omega

/-- Fields lie at the offsets of the account. -/
theorem spansFrom_eq_ok (offset : Nat) (hlimit : offset + (widths fields).sum < sizeLimit) :
    Shape.spansFrom s offset (scalarFields fields) =
      .ok ((placesFrom offset fields).map fun place =>
        ⟨place.1.name, place.2, place.1.item.width⟩) := by
  induction fields generalizing offset with
  | nil => rfl
  | cons field fields ih =>
    rw [add_sum_widths_cons] at hlimit
    have hnext : checkedSize Path.root (offset + field.item.width) =
        .ok (offset + field.item.width) := by
      rw [checkedSize, if_pos (by omega)]
    refine bind_eq_ok_iff.mpr ⟨field.item.width, rfl, ?_⟩
    refine bind_eq_ok_iff.mpr ⟨offset + field.item.width, hnext, ?_⟩
    exact bind_eq_ok_iff.mpr ⟨_, ih _ hlimit, rfl⟩

/-- Fields are written as the words of their scalars one after another. -/
theorem encodeFields_eq_write {values : List (Named Value)} {path : String} :
    Shape.encodeFields s path values (scalarFields fields) = .write bytes ↔
      ∃ scalars, List.Forall₂ (Holds values) fields scalars ∧
        bytes = scalars.flatMap fun x => encodeScalar (UInt64.ofNat x.bits) x.kind.width := by
  induction fields generalizing bytes with
  | nil =>
    simp only [List.forall₂_nil_left_iff, exists_eq_left, List.flatMap_nil]
    exact Emission.write_eq_write.trans eq_comm
  | cons field fields ih =>
    rw [scalarFields_cons, Shape.encodeFields_cons_eq_write]
    refine ⟨?_, ?_⟩
    · intro h
      obtain ⟨value, front, back, hvalue, hfront, hback, rfl⟩ := h
      obtain ⟨x, rfl, hkind, rfl⟩ := Shape.encodeAt_scalar_eq_write.mp hfront
      obtain ⟨scalars, hscalars, rfl⟩ := ih.mp hback
      exact ⟨x :: scalars, .cons ⟨hvalue, hkind⟩ hscalars, by
        rw [List.flatMap_cons, encodeScalar_bits]⟩
    · intro h
      obtain ⟨scalars, hscalars, rfl⟩ := h
      obtain ⟨x, others, ⟨hvalue, hkind⟩, hothers, rfl⟩ := List.forall₂_cons_left_iff.mp hscalars
      refine ⟨.scalar x, x.bytes, _, hvalue, ?_, ih.mpr ⟨others, hothers, rfl⟩, ?_⟩
      · exact Shape.encodeAt_scalar_eq_write.mpr ⟨x, rfl, hkind, rfl⟩
      · rw [List.flatMap_cons, encodeScalar_bits]

/-- What is encoded as the struct of fields is a value with scalars of their kinds, by the words of
those. -/
theorem encode_eq_ok {value : Value} :
    (Shape.struct (scalarFields fields)).encode value s = .ok bytes ↔
      ∃ scalars, Records fields value scalars ∧
        bytes = scalars.flatMap fun x => encodeScalar (UInt64.ofNat x.bits) x.kind.width := by
  have hnames : (scalarFields fields).map Named.name = fields.map Named.name := by
    simp [scalarFields]
  simp only [Shape.encode, Emission.toExcept_eq_ok, Shape.emission, Shape.encodeAt_struct_eq_write,
    Value.undeclaredField?_eq_none, encodeFields_eq_write, hnames]
  refine ⟨?_, ?_⟩
  · intro h
    obtain ⟨values, hvalue, hdeclared, scalars, hscalars, hbytes⟩ := h
    exact ⟨scalars, ⟨values, hvalue, hdeclared, hscalars⟩, hbytes⟩
  · intro h
    obtain ⟨scalars, ⟨values, hvalue, hdeclared, hscalars⟩, hbytes⟩ := h
    exact ⟨values, hvalue, hdeclared, scalars, hscalars, hbytes⟩

/-- Fields are read as the words at their offsets. -/
theorem decodeFields_eq_ok (offset : Nat) {path : String} {values : List (Named Value)}
    {rest : Bytes} :
    Shape.decodeFields s path (scalarFields fields) (bytes.drop offset) = .ok (values, rest) ↔
      List.Forall₂ (ReadsAs bytes) (placesFrom offset fields) values ∧
        rest = bytes.drop (offset + (widths fields).sum) := by
  induction fields generalizing offset values with
  | nil => simp [scalarFields, widths, Shape.decodeFields, eq_comm]
  | cons field fields ih =>
    rw [scalarFields_cons, Shape.decodeFields_cons_eq_ok, placesFrom_cons,
      List.forall₂_cons_left_iff, add_sum_widths_cons]
    refine ⟨?_, ?_⟩
    · intro h
      obtain ⟨value, middle, others, hvalue, hothers, rfl⟩ := h
      obtain ⟨word, x, hword, rfl, hkind, hbits, rfl⟩ := Shape.decodeAt_scalar_eq_ok_word.mp hvalue
      rw [List.drop_drop, ih] at hothers
      exact ⟨⟨_, others, ⟨word, x, hword, rfl, hkind, hbits⟩, hothers.1, rfl⟩, hothers.2⟩
    · intro h
      obtain ⟨⟨_, others, ⟨word, x, hword, rfl, hkind, hbits⟩, hothers, rfl⟩, hrest⟩ := h
      refine ⟨.scalar x, (bytes.drop offset).drop field.item.width, others, ?_, ?_, rfl⟩
      · exact Shape.decodeAt_scalar_eq_ok_word.mpr ⟨word, x, hword, rfl, hkind, hbits, rfl⟩
      · rw [List.drop_drop, ih]
        exact ⟨hothers, hrest⟩

/-- The first field whose word is not all there is the first of all, or the first among the others
after one that has a word. -/
theorem firstShort_cons {first place : Named ScalarKind × Nat}
    {others : List (Named ScalarKind × Nat)} {short : Truncated} :
    FirstShort bytes (first :: others) place short ↔
      (place = first ∧ wordAt bytes first = .error short) ∨
      (∃ word, wordAt bytes first = .ok word) ∧ FirstShort bytes others place short := by
  refine ⟨?_, ?_⟩
  · intro h
    obtain ⟨before, after, hplaced, hbefore, hshort⟩ := h
    cases before with
    | nil =>
      obtain ⟨rfl, _⟩ := List.cons.inj hplaced
      exact .inl ⟨rfl, hshort⟩
    | cons earlier before =>
      obtain ⟨rfl, hothers⟩ := List.cons.inj hplaced
      rw [List.forall_mem_cons] at hbefore
      exact .inr ⟨hbefore.1, before, after, hothers, hbefore.2, hshort⟩
  · intro h
    rcases h with ⟨rfl, hshort⟩ | ⟨hword, before, after, rfl, hbefore, hshort⟩
    · exact ⟨[], others, rfl, fun _ hearlier => absurd hearlier List.not_mem_nil, hshort⟩
    · exact ⟨first :: before, after, rfl, List.forall_mem_cons.mpr ⟨hword, hbefore⟩, hshort⟩

/-- Fields are refused for the first whose word is not all there, with the same numbers of bytes. -/
theorem decodeFields_eq_error (offset : Nat) {error : CodecError} :
    Shape.decodeFields s Path.root (scalarFields fields) (bytes.drop offset) = .error error ↔
      ∃ place short, FirstShort bytes (placesFrom offset fields) place short ∧
        error = ⟨place.1.name, .truncatedInput short.needed short.available⟩ := by
  induction fields generalizing offset with
  | nil => simp [scalarFields, Shape.decodeFields, FirstShort]
  | cons field fields ih =>
    simp only [scalarFields_cons, Shape.decodeFields_cons_eq_error, placesFrom_cons,
      firstShort_cons]
    refine ⟨?_, ?_⟩
    · intro h
      rcases h with hmissing | ⟨value, middle, hvalue, hothers⟩
      · obtain ⟨short, hshort, rfl⟩ := Shape.decodeAt_scalar_eq_error_word.mp hmissing
        exact ⟨(field, offset), short, .inl ⟨rfl, hshort⟩, rfl⟩
      · obtain ⟨word, x, hword, rfl, _, _, rfl⟩ := Shape.decodeAt_scalar_eq_ok_word.mp hvalue
        rw [List.drop_drop, ih] at hothers
        obtain ⟨place, short, hfirst, herror⟩ := hothers
        exact ⟨place, short, .inr ⟨⟨word, hword⟩, hfirst⟩, herror⟩
    · intro h
      obtain ⟨place, short, ⟨rfl, hshort⟩ | ⟨⟨word, hword⟩, hfirst⟩, herror⟩ := h
      · exact .inl (Shape.decodeAt_scalar_eq_error_word.mpr ⟨short, hshort, herror⟩)
      · have hx := (eq_ofBytes_iff hword).mp rfl
        refine .inr ⟨_, _, Shape.decodeAt_scalar_eq_ok_word.mpr
          ⟨word, _, hword, rfl, hx.1, hx.2, rfl⟩, ?_⟩
        rw [List.drop_drop, ih]
        exact ⟨place, short, hfirst, herror⟩

/-- The struct of fields decodes as the words at their offsets. -/
theorem decode_eq_ok {value : Value} :
    (Shape.struct (scalarFields fields)).decode bytes s = .ok value ↔
      ∃ values, value = .struct values ∧ List.Forall₂ (ReadsAs bytes) (places fields) values := by
  simp only [Shape.decode, Shape.decodeFront, map_eq_ok_iff]
  refine ⟨?_, ?_⟩
  · intro h
    obtain ⟨_, ⟨⟨read, rest⟩, hread, rfl⟩, rfl⟩ := h
    obtain ⟨values, rfl, hvalues⟩ := Shape.decodeAt_struct_eq_ok.mp hread
    exact ⟨values, rfl, ((decodeFields_eq_ok 0).mp hvalues).1⟩
  · intro h
    obtain ⟨values, rfl, hvalues⟩ := h
    have hread : Shape.decodeFields s Path.root (scalarFields fields) bytes =
        .ok (values, bytes.drop (0 + (widths fields).sum)) :=
      (decodeFields_eq_ok 0).mpr ⟨hvalues, rfl⟩
    exact ⟨_, ⟨_, Shape.decodeAt_struct_eq_ok.mpr ⟨values, rfl, hread⟩, rfl⟩, rfl⟩

/-- The struct of fields is refused for the first field whose word is not all there. -/
theorem decode_eq_error {error : CodecError} :
    (Shape.struct (scalarFields fields)).decode bytes s = .error error ↔
      ∃ place short, FirstShort bytes (places fields) place short ∧
        error = ⟨place.1.name, .truncatedInput short.needed short.available⟩ := by
  simp only [Shape.decode, Shape.decodeFront, map_eq_error_iff]
  rw [Shape.decodeAt, bind_eq_error_iff, or_iff_left]
  · exact decodeFields_eq_error 0
  · intro h
    obtain ⟨result, _, hresult⟩ := h
    cases hresult

/-- Where each field has a word, the fields have values. -/
theorem exists_readsAs {placed : List (Named ScalarKind × Nat)}
    (hwords : ∀ place ∈ placed, ∃ word, wordAt bytes place = .ok word) :
    ∃ values, List.Forall₂ (ReadsAs bytes) placed values := by
  induction placed with
  | nil => exact ⟨[], .nil⟩
  | cons place others ih =>
    obtain ⟨⟨word, hword⟩, hothers⟩ := List.forall_mem_cons.mp hwords
    obtain ⟨values, hvalues⟩ := ih hothers
    have hx := (eq_ofBytes_iff hword).mp rfl
    exact ⟨_, .cons ⟨word, _, hword, rfl, hx.1, hx.2⟩ hvalues⟩

/-- The field of a position has the value of that position. -/
theorem readsAs_getElem? {placed : List (Named ScalarKind × Nat)} {values : List (Named Value)}
    {i : Nat} {place : Named ScalarKind × Nat}
    (hvalues : List.Forall₂ (ReadsAs bytes) placed values)
    (hplace : placed[i]? = some place) :
    ∃ field, values[i]? = some field ∧ ReadsAs bytes place field := by
  induction hvalues generalizing i with
  | nil => cases hplace
  | cons hfirst _ ih =>
    cases i with
    | zero =>
      cases hplace
      exact ⟨_, rfl, hfirst⟩
    | succ i => exact ih hplace

/-- Where a field has a word, so has every field before it. -/
theorem exists_wordAt_of_last {i : Nat} {place : Named ScalarKind × Nat}
    (hplace : (places fields)[i]? = some place) (hword : ∃ word, wordAt bytes place = .ok word) :
    ∀ earlier ∈ places (fields.take (i + 1)), ∃ word, wordAt bytes earlier = .ok word := by
  have hcut : places (fields.take (i + 1)) = (places fields).take i ++ [place] := by
    rw [places_take, List.take_add_one, hplace, Option.toList_some]
  have hends : ((places fields).take i ++ [place]).Pairwise fun earlier later =>
      earlier.2 + earlier.1.item.width ≤ later.2 :=
    hcut ▸ pairwise_placesFrom 0
  have hend : place.2 + place.1.item.width ≤ bytes.length := exists_wordAt_iff.mp hword
  intro earlier hearlier
  rw [hcut, List.mem_append, List.mem_singleton] at hearlier
  rcases hearlier with hearlier | rfl
  · have hbefore := (List.pairwise_append.mp hends).2.2 earlier hearlier place List.mem_cons_self
    exact exists_wordAt_iff.mpr (by omega)
  · exact hword

/-- A field has a word exactly where the struct that ends with the field decodes, and the word is
what its last field gets. -/
theorem wordAt_eq_ok_iff {i : Nat} {place : Named ScalarKind × Nat} {word : UInt64}
    (hplace : (places fields)[i]? = some place) :
    wordAt bytes place = .ok word ↔
      ∃ values x, (Shape.struct (scalarFields (fields.take (i + 1)))).decode bytes s =
          .ok (.struct values) ∧
        values[i]? = some ⟨place.1.name, .scalar x⟩ ∧ x.kind = place.1.item ∧
        x.bits = word.toNat := by
  have hlast : (places (fields.take (i + 1)))[i]? = some place := by
    rw [places_take, List.getElem?_take_of_lt (Nat.lt_succ_self i), hplace]
  simp only [decode_eq_ok, Value.struct.injEq, exists_eq_left']
  refine ⟨?_, ?_⟩
  · intro hword
    obtain ⟨values, hvalues⟩ := exists_readsAs (exists_wordAt_of_last hplace ⟨word, hword⟩)
    obtain ⟨_, hfield, other, x, hother, rfl, hkind, hbits⟩ := readsAs_getElem? hvalues hlast
    cases hword.symm.trans hother
    exact ⟨values, x, hvalues, hfield, hkind, hbits⟩
  · intro h
    obtain ⟨values, x, hvalues, hfield, hkind, hbits⟩ := h
    obtain ⟨_, hother, read, y, hread, rfl, _, hpattern⟩ := readsAs_getElem? hvalues hlast
    cases hfield.symm.trans hother
    rw [hread, UInt64.toNat_inj.mp (hbits.symm.trans hpattern)]

/-- The two accounts agree on structs of scalars of any number of fields. The places of fields are
the offsets of the account; a value is encoded as the words of its scalars one after another, and
only values that have a scalar of the declared kind in each field are; a field is read exactly where
its word is, with the word as its pattern; and the struct is refused for the first field whose word
is not all there, with the numbers of bytes that the account gives. -/
theorem agrees_with_codec (s : Selections) (fields : List (Named ScalarKind))
    (hlimit : (widths fields).sum < sizeLimit) :
    (∃ spans, (Shape.struct (scalarFields fields)).fieldSpans s = .ok spans ∧
      spans.map FieldSpan.name = fields.map Named.name ∧
      spans.map FieldSpan.offset = denseOffsets (widths fields) ∧
      spans.map FieldSpan.size = widths fields) ∧
    (∀ value bytes, (Shape.struct (scalarFields fields)).encode value s = .ok bytes ↔
      ∃ scalars, Records fields value scalars ∧
        bytes = scalars.flatMap fun x => encodeScalar (UInt64.ofNat x.bits) x.kind.width) ∧
    ∀ bytes,
      (∀ i place word, (places fields)[i]? = some place →
        (wordAt bytes place = .ok word ↔
          ∃ values x, (Shape.struct (scalarFields (fields.take (i + 1)))).decode bytes s =
              .ok (.struct values) ∧
            values[i]? = some ⟨place.1.name, .scalar x⟩ ∧ x.kind = place.1.item ∧
            x.bits = word.toNat)) ∧
      (∀ value, (Shape.struct (scalarFields fields)).decode bytes s = .ok value ↔
        ∃ values, value = .struct values ∧ List.Forall₂ (ReadsAs bytes) (places fields) values) ∧
      ∀ error, (Shape.struct (scalarFields fields)).decode bytes s = .error error ↔
        ∃ place short, FirstShort bytes (places fields) place short ∧
          error = ⟨place.1.name, .truncatedInput short.needed short.available⟩ := by
  refine ⟨?_, fun value bytes => encode_eq_ok, ?_⟩
  · refine ⟨_, spansFrom_eq_ok 0 (by omega), ?_, ?_, ?_⟩
    · rw [List.map_map]
      exact map_fst_placesFrom Named.name 0
    · rw [List.map_map]
      exact map_snd_placesFrom 0
    · rw [List.map_map]
      exact map_fst_placesFrom (fun field => field.item.width) 0
  · intro bytes
    exact ⟨fun i place word hplace => wordAt_eq_ok_iff hplace, fun value => decode_eq_ok,
      fun error => decode_eq_error⟩

/-- A level that is not a number, and an index of which a byte is missing. -/
theorem agrees_with_codec_level :
    let fields := [⟨"level", .f32⟩, ⟨"index", .u16⟩]
    (widths fields).sum < sizeLimit ∧
      (∃ spans, (Shape.struct (scalarFields fields)).fieldSpans .empty = .ok spans ∧
        spans.map FieldSpan.offset = [0, 4]) ∧
      (∃ values x,
        (Shape.struct (scalarFields (fields.take 1))).decode [1, 0, 0xc0, 0x7f, 5] .empty =
          .ok (.struct values) ∧
        values[0]? = some ⟨"level", .scalar x⟩ ∧ x.kind = .f32 ∧ x.bits = 0x7fc00001) ∧
      (Shape.struct (scalarFields fields)).decode [1, 0, 0xc0, 0x7f, 5] .empty =
        .error ⟨"index", .truncatedInput 2 1⟩ := by
  intro fields
  have hlimit : (widths fields).sum < sizeLimit := by decide
  obtain ⟨⟨spans, hspans, _, hoffsets, _⟩, _, hdecode⟩ := agrees_with_codec .empty fields hlimit
  obtain ⟨hfield, _, herror⟩ := hdecode [1, 0, 0xc0, 0x7f, 5]
  have hlevel : wordAt [1, 0, 0xc0, 0x7f, 5] (⟨"level", .f32⟩, 0) = .ok 0x7fc00001 := by decide
  refine ⟨hlimit, ⟨spans, hspans, hoffsets⟩, (hfield 0 _ _ rfl).mp hlevel, (herror _).mpr ?_⟩
  refine ⟨(⟨"index", .u16⟩, 4), ⟨2, 1⟩, ⟨[(⟨"level", .f32⟩, 0)], [], rfl, ?_, by decide⟩, rfl⟩
  exact List.forall_mem_singleton.mpr ⟨_, hlevel⟩

end WireModel

end WireParity
