import WireParity.Proofs.Codec.JsonEncodable
import WireParity.Proofs.Value.Agreement

/-!
# Parity is an equivalence

Parity goes through the fields of the expected value and looks each up in the actual one, so it treats
its two sides differently. Where a struct lists a name twice this shows: the second field of the name
is compared as an expected one but never found as an actual one. Among values that repeat no name it
does not, and there parity is an equivalence. Codecs only ever hand on such values for a shape that
has passed validation.
-/

namespace WireParity

variable {s : Selections}

/-- What a valid shape decodes to repeats no field name. -/
theorem Shape.distinctFields_of_decode {shape : Shape} {bytes : Bytes} {value : Value}
    (hvalid : shape.validate = .ok ()) (hdecode : shape.decode bytes s = .ok value) :
    value.DistinctFields := by
  obtain ⟨⟨value, count⟩, hfront, rfl⟩ := map_eq_ok_iff.mp hdecode
  exact distinctFields_of_decodeFront hvalid hfront

namespace Value

/-- A value in which no struct repeats a field name. -/
abbrev Distinct := {value : Value // value.DistinctFields}

/-- Among values that repeat no field name, whatever their shapes, parity is an equivalence: each
value has parity with itself, NaN or not, and which of two is the expected one and through how many
others they were compared makes no difference. Everything that a valid shape decodes from bytes or
reads from JSON is among these values. -/
theorem agrees_equivalence :
    Equivalence (fun x y : Distinct => x.val.agrees y.val = true) ∧
    ∀ (shape : Shape) (s : Selections), shape.validate = .ok () →
      (∀ bytes value, shape.decode bytes s = .ok value → value.DistinctFields) ∧
      ∀ json value, shape.valueOfJson json s = .ok value → value.DistinctFields := by
  refine ⟨⟨fun x => ?_, fun {x y} hxy => ?_, fun {x y z} hxy hyz => ?_⟩, ?_⟩
  · rw [agrees_eq_true_iff]
    exact .refl x.property
  · rw [agrees_eq_true_iff] at hxy ⊢
    exact hxy.symm x.property y.property
  · rw [agrees_eq_true_iff] at hxy hyz ⊢
    exact hxy.trans hyz
  · intro shape s hvalid
    exact ⟨fun _ _ hdecode => Shape.distinctFields_of_decode hvalid hdecode,
      fun _ _ hread => Shape.distinctFields_of_valueOfJson hvalid hread⟩

/-- A NaN and a negative zero that are decoded have parity with themselves and, in either direction,
with the same NaN and a zero of the other sign that are listed the other way round. -/
theorem agrees_equivalence_gauge :
    let gauge := Shape.struct [Samples.field "level" .f32, Samples.field "drift" .f32]
    let decoded := Value.struct [⟨"level", .scalar (.ofBits .f32 0x7fc00001)⟩,
      ⟨"drift", .scalar (.ofBits .f32 0x80000000)⟩]
    let listed := Value.struct [⟨"drift", .scalar (.ofBits .f32 0)⟩,
      ⟨"level", .scalar (.ofBits .f32 0x7fc00001)⟩]
    gauge.validate = .ok () ∧
      gauge.decode [1, 0, 0xc0, 0x7f, 0, 0, 0, 0x80] .empty = .ok decoded ∧
      decoded.agrees decoded = true ∧ listed.agrees decoded = true ∧
      decoded.agrees listed = true := by
  intro gauge decoded listed
  obtain ⟨hequivalence, hdistinct⟩ := agrees_equivalence
  have hvalid : gauge.validate = .ok () := by decide
  have hdecode : gauge.decode [1, 0, 0xc0, 0x7f, 0, 0, 0, 0x80] .empty = .ok decoded := rfl
  have hagrees : listed.agrees decoded = true := by decide
  let x : Distinct := ⟨decoded, (hdistinct gauge .empty hvalid).1 _ _ hdecode⟩
  let y : Distinct := ⟨listed, by decide⟩
  have hback : x.val.agrees y.val = true := hequivalence.symm (x := y) hagrees
  exact ⟨hvalid, hdecode, hequivalence.refl x, hagrees, hback⟩

/-- A struct that repeats a name differs from itself. -/
example :
    let twice := Value.struct [⟨"x", .scalar (.ofBits .u8 1)⟩, ⟨"x", .scalar (.ofBits .u8 2)⟩]
    twice.agrees twice = false := by decide

/-- A struct that repeats a name may be as expected and yet not expect what it agrees with. -/
example :
    let once := Value.struct [⟨"x", .scalar (.ofBits .u8 1)⟩]
    let twice := Value.struct [⟨"x", .scalar (.ofBits .u8 1)⟩, ⟨"x", .scalar (.ofBits .u8 2)⟩]
    once.agrees twice = true ∧ twice.agrees once = false := by decide

end Value

end WireParity
