import WireParity.Bytes.LittleEndian
import WireParity.Corpus.Basic

/-!
# Sample shapes

Shapes of every form under the names that sample corpora use, and a plain vector.
-/

namespace WireParity.Samples

/-- A scalar under a name. -/
def field (name : String) (kind : ScalarKind) : Named Shape := ⟨name, .scalar kind⟩

/-- One field of every kind of scalar. -/
def allScalars : Shape := .struct (ScalarKind.all.map fun kind => field (kind.name ++ "_val") kind)

/-- A point of the plane. -/
def point : Shape := .struct [field "x" .i32, field "y" .i32]

/-- Two corners and a colour. -/
def rectangle : Shape :=
  .struct [⟨"top_left", point⟩, ⟨"bottom_right", point⟩, field "color" .u32]

/-- Fields of different widths, the widest first. -/
def record : Shape := .struct [field "id" .u64, field "flags" .u8, field "value" .u16]

/-- Variants without a payload, with a scalar and with a struct. -/
def choice : Shape :=
  .enum [⟨"None", 0, none⟩, ⟨"Value", 1, some (.scalar .u32)⟩,
    ⟨"Pair", 2, some (.struct [field "first" .u16, field "second" .u16])⟩]

/-- Members of different widths. -/
def overlay : Shape :=
  .union [field "int_value" .i32, field "float_value" .f32,
    ⟨"bytes", .array (.scalar .u8) 4⟩, field "wide" .u64]

/-- Arrays of integers. -/
def arrays : List (Named Shape) :=
  [⟨"u8_array_4", .array (.scalar .u8) 4⟩, ⟨"u16_array_3", .array (.scalar .u16) 3⟩,
   ⟨"u32_array_2", .array (.scalar .u32) 2⟩, ⟨"i32_array_5", .array (.scalar .i32) 5⟩]

/-- A vector for a number of 16 bits. -/
def vectorOfU16 (caseName : String) (n : UInt16) : TestVector :=
  .plain caseName (.scalar .u16) (.scalar (Scalar.ofBits .u16 n.toNat))
    (LittleEndian.ofNat 2 n.toNat)

end WireParity.Samples
