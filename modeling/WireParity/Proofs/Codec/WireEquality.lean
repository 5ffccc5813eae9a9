import WireParity.Proofs.Codec.Tokens
import WireParity.Proofs.Value.Zeros

/-!
# Parity is equality on the wire

Whether a value can be encoded depends on its form and on the kinds of its scalars, and values that
agree share both. What they encode to differs at most in the signs of zeros: with positive zero in
place of each negative one, values agree exactly if their encodings are the same bytes. One direction
follows the values and the other needs that an encoding determines its value, whatever order structs
were listed in.

Neither direction needs a well-formed shape.
-/

namespace WireParity.Shape

variable {s : Selections} {path : String}

/-- What agreement with an encoded value at any path amounts to: being encoded as well. -/
def AcceptsAgreeing (s : Selections) (shape : Shape) : Prop :=
  ∀ path x y bytes, x.Agrees y → shape.encodeAt s x path = .write bytes →
    ∃ other, shape.encodeAt s y path = .write other

/-- Elements that agree with written ones are written, if one element is. -/
theorem exists_emitItems_of_agrees {elem : Shape} (helem : elem.AcceptsAgreeing s) {index : Nat}
    {xs ys : List Value} {bytes : Bytes} (hlength : xs.length = ys.length)
    (hagrees : ∀ (i : Nat) x y, xs[i]? = some x → ys[i]? = some y → x.Agrees y)
    (hwritten : emitItems (fun item index => elem.encodeAt s item (Path.element path index))
      index xs = .write bytes) :
    ∃ other, emitItems (fun item index => elem.encodeAt s item (Path.element path index))
      index ys = .write other := by
  induction xs generalizing index ys bytes with
  | nil =>
    cases ys with
    | nil => exact ⟨bytes, hwritten⟩
    | cons => cases hlength
  | cons x xs ih =>
    cases ys with
    | nil => cases hlength
    | cons y ys =>
      obtain ⟨front, back, hfront, hback, rfl⟩ := emitItems_cons_eq_write.mp hwritten
      obtain ⟨front', hfront'⟩ := helem _ x y front (hagrees 0 x y rfl rfl) hfront
      obtain ⟨back', hback'⟩ := ih (Nat.succ.inj hlength) (fun i => hagrees (i + 1)) hback
      exact ⟨front' ++ back', emitItems_cons_eq_write.mpr ⟨front', back', hfront', hback', rfl⟩⟩

/-- Declared fields are written in a struct whose fields agree with written ones of their names. -/
theorem exists_encodeFields_of_agrees {fields : List (Named Shape)}
    (hfields : ∀ field ∈ fields, field.item.AcceptsAgreeing s) {xs ys : List (Named Value)}
    {bytes : Bytes}
    (hfound : ∀ name x, Value.fieldIn? name xs = some x →
      ∃ y, Value.fieldIn? name ys = some y ∧ x.Agrees y)
    (hwritten : encodeFields s path xs fields = .write bytes) :
    ∃ other, encodeFields s path ys fields = .write other := by
  induction fields generalizing bytes with
  | nil => exact ⟨bytes, hwritten⟩
  | cons field fields ih =>
    rw [List.forall_mem_cons] at hfields
    obtain ⟨x, front, back, hx, hfront, hback, rfl⟩ := encodeFields_cons_eq_write.mp hwritten
    obtain ⟨y, hy, hagrees⟩ := hfound _ x hx
    obtain ⟨front', hfront'⟩ := hfields.1 _ x y front hagrees hfront
    obtain ⟨back', hback'⟩ := ih hfields.2 hback
    exact ⟨front' ++ back',
      encodeFields_cons_eq_write.mpr ⟨y, front', back', hy, hfront', hback', rfl⟩⟩

/-- Whatever agrees with an encoded value is encoded as well. -/
theorem acceptsAgreeing (s : Selections) (shape : Shape) : shape.AcceptsAgreeing s := by
  induction shape with
  | scalar kind =>
    intro path x y bytes hagrees hwritten
    obtain ⟨a, rfl, rfl, rfl⟩ := encodeAt_scalar_eq_write.mp hwritten
    cases hagrees with
    | @scalar _ b hscalars =>
      have hkind : a.kind = b.kind := (Scalar.agrees_iff.mp hscalars).1
      exact ⟨b.bytes, encodeAt_scalar_eq_write.mpr ⟨b, rfl, hkind.symm, rfl⟩⟩
  | array elem count ih =>
    intro path x y bytes hagrees hwritten
    obtain ⟨items, rfl, hcount, hitems⟩ := encodeAt_array_eq_write.mp hwritten
    cases hagrees with
    | @array _ ys hlength hagrees =>
      obtain ⟨other, hother⟩ := exists_emitItems_of_agrees ih hlength hagrees hitems
      exact ⟨other, encodeAt_array_eq_write.mpr ⟨ys, rfl, hlength.symm.trans hcount, hother⟩⟩
  | struct fields ih =>
    intro path x y bytes hagrees hwritten
    obtain ⟨xs, rfl, hdeclared, hvalues⟩ := encodeAt_struct_eq_write.mp hwritten
    cases hagrees with
    | @struct _ ys hnames hagrees =>
      have hdeclared' : Value.undeclaredField? fields ys = none := by
        rw [Value.undeclaredField?_eq_none] at hdeclared ⊢
        intro y hy
        obtain ⟨x, hx, hname⟩ := List.mem_map.mp ((hnames y.name).mpr (List.mem_map_of_mem hy))
        exact hname ▸ hdeclared x hx
      have hfound : ∀ name x, Value.fieldIn? name xs = some x →
          ∃ y, Value.fieldIn? name ys = some y ∧ x.Agrees y := by
        intro name x hx
        have hmem := Value.mem_of_fieldIn? hx
        obtain ⟨y, hy⟩ := Value.exists_fieldIn? ((hnames name).mp (List.mem_map_of_mem hmem))
        exact ⟨y, hy, hagrees _ hmem y hy⟩
      obtain ⟨other, hother⟩ := exists_encodeFields_of_agrees ih hfound hvalues
      exact ⟨other, encodeAt_struct_eq_write.mpr ⟨ys, rfl, hdeclared', hother⟩⟩
  | enum variants ih =>
    intro path x y bytes hagrees hwritten
    rcases encodeAt_enum_eq_write.mp hwritten with ⟨tag, name, rfl, hvariant, rfl⟩ |
      ⟨tag, name, shape, payload, back, rfl, hvariant, hpayload, rfl⟩
    · cases hagrees
      exact ⟨[tag], hwritten⟩
    · cases hagrees with
      | @loaded _ _ payload' hagrees =>
        obtain ⟨other, hother⟩ :=
          ih _ (mem_of_variantTagged? hvariant) shape rfl _ payload payload' back hagrees hpayload
        exact ⟨tag :: other, encodeAt_enum_eq_write.mpr
          (Or.inr ⟨tag, name, shape, payload', other, rfl, hvariant, hother, rfl⟩)⟩
  | union members ih =>
    intro path x y bytes hagrees hwritten
    obtain ⟨name, shape, hselected, hmember, hvalue⟩ := encodeAt_union_eq_write.mp hwritten
    obtain ⟨other, hother⟩ :=
      ih _ (mem_of_memberNamed? hmember) _ x y bytes hagrees hvalue
    exact ⟨other, encodeAt_union_eq_write.mpr ⟨name, shape, hselected, hmember, hother⟩⟩

/-- Whatever agrees with a value that has an encoding has one. -/
theorem exists_encode_of_agrees {shape : Shape} {x y : Value} {bytes : Bytes} (hagrees : x.Agrees y)
    (hencode : shape.encode x s = .ok bytes) : ∃ other, shape.encode y s = .ok other := by
  obtain ⟨other, hother⟩ := acceptsAgreeing s shape _ x y bytes hagrees (encode_eq_ok_iff.mp hencode)
  exact ⟨other, encode_eq_ok_iff.mpr hother⟩

/-- An encoding with positive zero in place of every negative zero among its floats. Where the floats
are is known from the value that is decoded. -/
def unsignZeros (shape : Shape) (s : Selections) (bytes : Bytes) : Bytes :=
  match shape.decode bytes s with
  | .ok value => Token.wire (value.tokens.map (Token.mapScalar Scalar.unsignZero))
  | .error _ => bytes

/-- It makes no difference whether zeros lose their signs before or after encoding. -/
theorem encode_unsignZeros {shape : Shape} {x : Value} {bytes : Bytes} (hx : x.DistinctFields)
    (hencode : shape.encode x s = .ok bytes) :
    shape.encode x.unsignZeros s = .ok (shape.unsignZeros s bytes) := by
  obtain ⟨back, hback, hmatch⟩ := (encode_eq_ok_iff_denotes hx).mp hencode
  have hdecode : shape.decode bytes s = .ok back := by
    have hfront : shape.decodeFront bytes s = .ok (back, bytes.length) :=
      decodeFront_eq_ok_iff.mpr ⟨bytes, [], (List.append_nil bytes).symm, rfl, hback⟩
    rw [decode, hfront]
    rfl
  have hx' : x.unsignZeros.DistinctFields := hx.mapScalars _
  rw [encode_eq_ok_iff_denotes hx', unsignZeros, hdecode]
  exact ⟨back.unsignZeros, hback.mapScalars Scalar.kind_unsignZero, hmatch.mapScalars _⟩

/-- Of two values that repeat no field name and agree, one has an encoding if the other has. Values
with encodings agree exactly if these are the same bytes but for the signs of zeros, which may be
taken away from the values or from the bytes. The order in which structs list their fields never
shows in an encoding. -/
theorem agrees_iff_unsignZeros_eq (shape : Shape) (s : Selections) (x y : Value)
    (hx : x.DistinctFields) (hy : y.DistinctFields) :
    (x.agrees y = true →
      ((∃ bytes, shape.encode x s = .ok bytes) ↔ ∃ bytes, shape.encode y s = .ok bytes)) ∧
    (∀ front back, shape.encode x s = .ok front → shape.encode y s = .ok back →
      shape.encode x.unsignZeros s = .ok (shape.unsignZeros s front) ∧
      shape.encode y.unsignZeros s = .ok (shape.unsignZeros s back) ∧
      (x.agrees y = true ↔ shape.unsignZeros s front = shape.unsignZeros s back)) ∧
    (x.Matches y → ∀ bytes, shape.encode x s = .ok bytes ↔ shape.encode y s = .ok bytes) := by
  rw [Value.agrees_eq_true_iff]
  have hx' : x.unsignZeros.DistinctFields := hx.mapScalars _
  have hy' : y.unsignZeros.DistinctFields := hy.mapScalars _
  refine ⟨fun hagrees => ⟨?_, ?_⟩, fun front back hfront hback => ?_, fun hmatch bytes => ?_⟩
  · rintro ⟨bytes, hencode⟩
    exact exists_encode_of_agrees hagrees hencode
  · rintro ⟨bytes, hencode⟩
    exact exists_encode_of_agrees (hagrees.symm hx hy) hencode
  · have hfront' := encode_unsignZeros hx hfront
    have hback' := encode_unsignZeros hy hback
    refine ⟨hfront', hback', ?_⟩
    rw [Value.agrees_iff_matches_unsignZeros hx hy]
    refine ⟨fun hmatch => ?_, fun hsame => ?_⟩
    · rw [encode_eq_ok_iff_of_matches hx' hy' hmatch, hback', Except.ok.injEq] at hfront'
      exact hfront'.symm
    · exact matches_of_encode_eq hx' hy' hfront' (hsame ▸ hback')
  · exact encode_eq_ok_iff_of_matches hx hy hmatch

/-- Two gauges agree that list their fields in different orders and show zeros of different signs.
Their encodings differ, but only in the sign. -/
theorem agrees_iff_unsignZeros_eq_gauge :
    let gauge := Shape.struct [Samples.field "level" .f32, Samples.field "flag" .u8]
    let x := Value.struct [⟨"level", .scalar (.ofBits .f32 0x80000000)⟩,
      ⟨"flag", .scalar (.ofBits .u8 1)⟩]
    let y := Value.struct [⟨"flag", .scalar (.ofBits .u8 1)⟩, ⟨"level", .scalar (.ofBits .f32 0)⟩]
    x.DistinctFields ∧ y.DistinctFields ∧
      gauge.encode x .empty = .ok [0, 0, 0, 0x80, 1] ∧ gauge.encode y .empty = .ok [0, 0, 0, 0, 1] ∧
      gauge.unsignZeros .empty [0, 0, 0, 0x80, 1] = gauge.unsignZeros .empty [0, 0, 0, 0, 1] ∧
      x.agrees y = true := by
  intro gauge x y
  have hx : x.DistinctFields := by decide
  have hy : y.DistinctFields := by decide
  have hfront : gauge.encode x .empty = .ok [0, 0, 0, 0x80, 1] := by decide
  have hback : gauge.encode y .empty = .ok [0, 0, 0, 0, 1] := by decide
  have hsame : gauge.unsignZeros .empty [0, 0, 0, 0x80, 1] =
      gauge.unsignZeros .empty [0, 0, 0, 0, 1] := by decide
  obtain ⟨_, hencoded, _⟩ := agrees_iff_unsignZeros_eq gauge .empty x y hx hy
  exact ⟨hx, hy, hfront, hback, hsame, (hencoded _ _ hfront hback).2.2.mpr hsame⟩

end WireParity.Shape
