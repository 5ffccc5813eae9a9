import WireParity.Proofs.Codec.Encoding
import WireParity.Proofs.Codec.JsonScalar
import Mathlib.Data.Int.ModEq

/-!
# Patterns and integers in JSON

A scalar can be given by its bit pattern in hexadecimal, whatever its kind, and an integer also as a
number. Patterns go through a word of 64 bits, integers through two's complement and a check of the
range, and floats past both. All kinds come to the same: a pattern that fits the field is the one that
is written to the wire, and a wider one is refused.
-/

namespace WireParity

/-- The bytes of a word are its digits to base 256, least significant first. -/
theorem LittleEndian.ofNat_eq_map (width n : Nat) :
    ofNat width n = (List.range width).map fun i => UInt8.ofNat (n / 256 ^ i % 256) := by
  induction width generalizing n with
  | zero => rfl
  | succ width ih =>
    rw [ofNat, ih, List.range_succ_eq_map, List.map_cons, List.map_map, Nat.pow_zero, Nat.div_one]
    simp only [Function.comp_def, Nat.succ_eq_add_one, Nat.pow_succ', Nat.div_div_eq_div_mul]

/-- A numeral denotes a number below its bound. -/
theorem Hex.numeralBelow?_lt {bound n : Nat} {text : List Char}
    (hnumber : numeralBelow? bound text = some n) : n < bound := by
  unfold numeralBelow? at hnumber
  dsimp only at hnumber
  split at hnumber
  · cases hnumber
  · exact of_decide_eq_true (Option.filter_eq_some_iff.mp hnumber).2

namespace ScalarKind

/-- A kind has a pattern for each combination of its bits. -/
theorem modulus_eq (kind : ScalarKind) : kind.modulus = 2 ^ (8 * kind.width) := by
  cases kind <;> rfl

/-- The range of a kind by its width in bits. -/
theorem inRange_iff (kind : ScalarKind) (n : Int) :
    kind.least ≤ n ∧ n < kind.bound ↔
      if kind.isSigned then -2 ^ (8 * kind.width - 1) ≤ n ∧ n < 2 ^ (8 * kind.width - 1)
      else 0 ≤ n ∧ n < 2 ^ (8 * kind.width) := by
  cases kind <;> exact Iff.rfl

/-- A kind has as many integers as patterns. -/
theorem bound_eq (kind : ScalarKind) : kind.bound = kind.least + (kind.modulus : Nat) := by
  cases kind <;> decide

/-- No range begins above zero. -/
theorem least_nonpos (kind : ScalarKind) : kind.least ≤ 0 := by
  cases kind <;> decide

/-- A field is one to eight bytes wide. -/
theorem width_mem (kind : ScalarKind) : 0 < kind.width ∧ kind.width ≤ 8 := by
  cases kind <;> decide

end ScalarKind

namespace Scalar

/-- A pattern that fits is kept as it is. -/
theorem bits_ofBits {kind : ScalarKind} {n : Nat} (hfits : n < kind.modulus) :
    (ofBits kind n).bits = n :=
  Nat.mod_eq_of_lt hfits

/-- A scalar of a signed kind stands for its pattern in two's complement. -/
theorem toInt_eq_bmod {x : Scalar} (hsigned : x.kind.isSigned = true) :
    x.toInt = (x.bits : Int).bmod x.kind.modulus := by
  have hfits : x.bits < x.kind.modulus := x.fits
  have hhalf := x.kind.two_mul_half_modulus
  have hself : (x.bits : Int) % (x.kind.modulus : Nat) = x.bits :=
    Int.emod_eq_of_lt (Int.natCast_nonneg _) (Int.ofNat_lt.mpr hfits)
  rw [toInt, Int.bmod_def, hself, hsigned]
  simp only [true_and]
  split <;> split <;> omega

/-- A scalar of an unsigned kind stands for its pattern. -/
theorem toInt_eq_bits {x : Scalar} (hunsigned : x.kind.isSigned = false) : x.toInt = x.bits := by
  rw [toInt, hunsigned, if_neg (fun h => Bool.false_ne_true h.1)]

/-- Every integer in the range of a kind has a scalar. -/
theorem exists_toInt {kind : ScalarKind} {n : Int} (hrange : kind.least ≤ n ∧ n < kind.bound) :
    ∃ x : Scalar, x.kind = kind ∧ x.toInt = n := by
  have hspan := kind.bound_eq
  have hpos : (0 : Int) < (kind.modulus : Nat) := Int.natCast_pos.mpr (Nat.pow_pos (by decide))
  have hrest := Int.emod_nonneg n (Int.ne_of_gt hpos)
  have hless := Int.emod_lt_of_pos n hpos
  obtain ⟨x, hx⟩ : ∃ x, x = ofBits kind (n % (kind.modulus : Nat)).toNat := ⟨_, rfl⟩
  have hkind : x.kind = kind := hx ▸ rfl
  have hbits : (x.bits : Int) = n % (kind.modulus : Nat) := by
    rw [hx, bits_ofBits (by omega), Int.toNat_of_nonneg hrest]
  refine ⟨x, hkind, ?_⟩
  -- Two integers of one range are as far apart as their remainders.
  have hsame : x.toInt % (kind.modulus : Nat) = n % (kind.modulus : Nat) := by
    rw [← hbits, ← x.toInt_emod, hkind]
  have hself := hkind ▸ x.toInt_inRange
  have hmove := Int.ModEq.sub_right kind.least hsame
  rw [Int.ModEq, Int.emod_eq_of_lt (by omega) (by omega), Int.emod_eq_of_lt (by omega) (by omega)]
    at hmove
  omega

/-- The scalar that is made of an integer is the one that stands for it. -/
theorem ofInt?_eq_some_iff {kind : ScalarKind} {n : Int} {x : Scalar} :
    ofInt? kind n = some x ↔ x.kind = kind ∧ x.toInt = n := by
  refine ⟨fun hmade => ?_, fun ⟨hkind, hn⟩ => hkind ▸ hn ▸ x.ofInt?_toInt⟩
  have hrange : kind.least ≤ n ∧ n < kind.bound := by
    by_contra houtside
    rw [ofInt?, if_neg houtside] at hmade
    cases hmade
  obtain ⟨y, rfl, rfl⟩ := exists_toInt hrange
  rw [y.ofInt?_toInt, Option.some.injEq] at hmade
  exact hmade ▸ ⟨rfl, rfl⟩

end Scalar

namespace Value

/-- The remainder around zero of a number moved up is that of the number, moved up as far. -/
private theorem bmod_mul_mul (n : Int) {half step : Nat} (hhalf : 0 < half) (hstep : 0 < step) :
    (n * step).bmod (2 * half * step) = n.bmod (2 * half) * step := by
  have hleast : -(half : Int) ≤ n.bmod (2 * half) := by
    have := Int.le_bmod (x := n) (m := 2 * half) (by omega)
    omega
  have hbound : n.bmod (2 * half) < half := by
    have := Int.bmod_lt (x := n) (m := 2 * half) (by omega)
    omega
  obtain ⟨k, hk⟩ := Int.dvd_bmod_sub_self (x := n) (m := 2 * half)
  have hends : ((2 * half * step : Nat) : Int) = 2 * (half * step) := by
    push_cast
    rw [Int.mul_assoc]
  rw [Int.bmod_eq_iff (Nat.mul_pos (by omega) hstep), hends]
  refine ⟨?_, ?_, k, ?_⟩
  · have := Int.mul_le_mul_of_nonneg_right hleast (Int.natCast_nonneg step)
    rw [Int.neg_mul] at this
    omega
  · have := Int.mul_lt_mul_of_pos_right hbound (Int.natCast_pos.mpr hstep)
    omega
  · rw [← Int.sub_mul, hk, ← hends, Int.natCast_mul (2 * half), Int.mul_right_comm]

/-- Moving a pattern up a word and down again reads it in two's complement, if it fits the field. -/
theorem signExtend_eq_bmod {width bits : Nat} (hpos : 0 < width) (hwidth : width ≤ 8)
    (hfits : bits < 2 ^ (8 * width)) :
    signExtend width bits = (bits : Int).bmod (2 ^ (8 * width)) := by
  have hword : 2 ^ 64 = 2 * 2 ^ (8 * width - 1) * 2 ^ (64 - 8 * width) := by
    rw [← Nat.pow_succ', ← Nat.pow_add]
    congr 1
    omega
  have hfield : 2 * 2 ^ (8 * width - 1) = 2 ^ (8 * width) := by
    rw [← Nat.pow_succ']
    congr 1
    omega
  have htop : bits >>> (64 - (64 - 8 * width)) = 0 := by
    rw [show 64 - (64 - 8 * width) = 8 * width by omega, Nat.shiftRight_eq_div_pow]
    exact Nat.div_eq_of_lt hfits
  have hbits : bits % 2 ^ 64 = bits :=
    Nat.mod_eq_of_lt (Nat.lt_of_lt_of_le hfits (Nat.pow_le_pow_right Nat.two_pos (by omega)))
  rw [signExtend]
  simp only [htop, ne_eq, not_true_eq_false, and_false, if_false]
  rw [BitVec.toInt_sshiftRight, BitVec.toInt_shiftLeft, BitVec.toNat_ofNat, hbits,
    Nat.shiftLeft_eq, hword, Int.natCast_mul,
    bmod_mul_mul _ (Nat.two_pow_pos _) (Nat.two_pow_pos _), hfield, Int.shiftRight_eq_div_pow]
  exact Int.mul_ediv_cancel _ (Int.natCast_ne_zero.mpr (Nat.ne_of_gt (Nat.two_pow_pos _)))

/-- A pattern that is wider than the field is not touched. -/
theorem signExtend_of_wide {width bits : Nat} (hwidth : width < 8)
    (hwide : 2 ^ (8 * width) ≤ bits) : signExtend width bits = bits := by
  have htop : bits >>> (64 - (64 - 8 * width)) ≠ 0 := by
    rw [show 64 - (64 - 8 * width) = 8 * width by omega, Nat.shiftRight_eq_div_pow]
    exact Nat.ne_of_gt (Nat.div_pos hwide (Nat.two_pow_pos _))
  rw [signExtend]
  exact if_pos ⟨by omega, htop⟩

/-- A pattern stands for the integer of its scalar. -/
theorem patternInt_bits (x : Scalar) : patternInt x.kind x.bits = x.toInt := by
  obtain ⟨hpos, hwidth⟩ := x.kind.width_mem
  have hfits : x.bits < 2 ^ (8 * x.kind.width) := x.kind.modulus_eq ▸ x.fits
  rw [patternInt]
  cases hsigned : x.kind.isSigned with
  | true =>
    rw [if_pos rfl, signExtend_eq_bmod hpos hwidth hfits, Scalar.toInt_eq_bmod hsigned,
      x.kind.modulus_eq]
  | false => rw [if_neg Bool.false_ne_true, Scalar.toInt_eq_bits hsigned]

/-- A pattern wider than the field stands for itself. -/
theorem patternInt_of_wide {kind : ScalarKind} {bits : Nat} (hword : bits < 2 ^ 64)
    (hwide : kind.modulus ≤ bits) : patternInt kind bits = bits := by
  have hwidth : kind.width < 8 := by
    by_contra hlarge
    rw [kind.modulus_eq, show kind.width = 8 by have := kind.width_mem; omega] at hwide
    omega
  rw [kind.modulus_eq] at hwide
  rw [patternInt, signExtend_of_wide hwidth hwide]
  split <;> rfl

/-- A number in hexadecimal is written after a zero, and 64 bits hold it. -/
theorem of_hexNumber? {text : String} {n : Nat} (hnumber : hexNumber? text = some n) :
    text.toList.head? = some '0' ∧ n < 2 ^ 64 := by
  unfold hexNumber? at hnumber
  split at hnumber
  · rename_i htext
    exact ⟨htext ▸ rfl, Hex.numeralBelow?_lt hnumber⟩
  · rename_i htext
    exact ⟨htext ▸ rfl, Hex.numeralBelow?_lt hnumber⟩
  · cases hnumber

variable {kind : ScalarKind} {path : String}

/-- No number in hexadecimal is a word for a float. -/
theorem floatBitsOf_of_hexNumber? {text : String} {n : Nat} (hnumber : hexNumber? text = some n) :
    floatBitsOf kind path (.string text) =
      if n < kind.modulus then .ok n else .error (unusable path (.outOfRange n kind)) := by
  obtain ⟨hzero, -⟩ := of_hexNumber? hnumber
  have hhead : ∀ word : String, some '0' ≠ word.toList.head? → Text.lowercase text ≠ word := by
    intro word hword
    apply lowercase_ne
    rw [hzero]
    exact hword
  have hnan := hhead "nan" (by decide)
  have hinfinite : Text.lowercase text ∉ ["inf", "+inf", "infinity"] := by
    simp only [List.mem_cons, List.not_mem_nil, or_false, not_or]
    exact ⟨hhead _ (by decide), hhead _ (by decide), hhead _ (by decide)⟩
  have hnegative : Text.lowercase text ∉ ["-inf", "-infinity"] := by
    simp only [List.mem_cons, List.not_mem_nil, or_false, not_or]
    exact ⟨hhead _ (by decide), hhead _ (by decide)⟩
  unfold floatBitsOf
  simp only [if_neg hnan, if_neg hinfinite, if_neg hnegative, hnumber]

/-- An integer makes a scalar of an integer kind exactly if it is in range. -/
theorem scalarOfJson_of_integerOf {json : Json} {n : Int} (hinteger : kind.isFloat = false)
    (hread : integerOf kind path json = .ok n) :
    scalarOfJson kind path json =
      match Scalar.ofInt? kind n with
      | some x => .ok (.scalar x)
      | none => .error (unusable path (.outOfRange n kind)) := by
  rw [scalarOfJson, hinteger, if_neg Bool.false_ne_true, hread]
  rfl

/-- A pattern in hexadecimal makes a scalar of any kind exactly if it fits the field. -/
theorem scalarOfJson_of_hexNumber? {text : String} {n : Nat} (hnumber : hexNumber? text = some n) :
    scalarOfJson kind path (.string text) =
      if n < kind.modulus then .ok (.scalar (.ofBits kind n))
      else .error (unusable path (.outOfRange n kind)) := by
  cases hfloat : kind.isFloat with
  | true =>
    rw [scalarOfJson, hfloat, if_pos rfl, floatBitsOf_of_hexNumber? hnumber]
    split <;> rfl
  | false =>
    have hread : integerOf kind path (.string text) = .ok (patternInt kind n) := by
      simp only [integerOf, hnumber]
    rw [scalarOfJson_of_integerOf hfloat hread]
    by_cases hfits : n < kind.modulus
    · have hbits := patternInt_bits (Scalar.ofBits kind n)
      have hscalar := (Scalar.ofBits kind n).ofInt?_toInt
      rw [← hbits, Scalar.bits_ofBits hfits] at hscalar
      replace hscalar : Scalar.ofInt? kind (patternInt kind n) = some (.ofBits kind n) := hscalar
      rw [hscalar, if_pos hfits]
    · have hleast := kind.least_nonpos
      have hspan := kind.bound_eq
      have hrange : Scalar.ofInt? kind n = none := if_neg (by omega)
      rw [patternInt_of_wide (of_hexNumber? hnumber).2 (Nat.le_of_not_lt hfits), hrange,
        if_neg hfits]

end Value

namespace Shape

open Value

variable {kind : ScalarKind} {s t : Selections} {value : Value}

/-- A pattern is accepted for a kind that is wide enough, as the scalar with that pattern. -/
theorem valueOfJson_pattern_eq_ok_iff {text : String} {n : Nat} (hnumber : hexNumber? text = some n) :
    (Shape.scalar kind).valueOfJson (.string text) s = .ok value ↔
      ∃ x : Scalar, value = .scalar x ∧ x.kind = kind ∧ x.bits = n := by
  rw [valueOfJson, valueAt, scalarOfJson_of_hexNumber? hnumber]
  by_cases hfits : n < kind.modulus
  · rw [if_pos hfits, Except.ok.injEq]
    refine ⟨fun h => ⟨_, h.symm, rfl, Scalar.bits_ofBits hfits⟩, fun ⟨x, hvalue, hkind, hbits⟩ => ?_⟩
    rw [hvalue, ← hkind, ← hbits, x.ofBits_bits]
  · rw [if_neg hfits]
    refine ⟨fun h => (by cases h), fun ⟨x, _, hkind, hbits⟩ => absurd ?_ hfits⟩
    exact hkind ▸ hbits ▸ x.fits

/-- A number is accepted for an integer kind with a scalar for it, as that scalar. -/
theorem valueOfJson_int_eq_ok_iff (hinteger : kind.isFloat = false) {n : Int} :
    (Shape.scalar kind).valueOfJson (.number (.int n)) s = .ok value ↔
      ∃ x : Scalar, value = .scalar x ∧ x.kind = kind ∧ x.toInt = n := by
  rw [valueOfJson, valueAt, scalarOfJson_of_integerOf hinteger rfl]
  cases hmade : Scalar.ofInt? kind n with
  | none =>
    refine ⟨fun h => (by cases h), fun ⟨x, _, hx⟩ => ?_⟩
    rw [Scalar.ofInt?_eq_some_iff.mpr hx] at hmade
    cases hmade
  | some y =>
    refine ⟨fun h => ?_, fun ⟨x, hvalue, hx⟩ => ?_⟩
    · cases h
      exact ⟨y, rfl, Scalar.ofInt?_eq_some_iff.mp hmade⟩
    · rw [Scalar.ofInt?_eq_some_iff.mpr hx, Option.some.injEq] at hmade
      rw [hvalue, hmade]

/-- A scalar is written as the digits of its pattern to base 256. -/
theorem encode_scalar (x : Scalar) :
    (Shape.scalar x.kind).encode (.scalar x) t =
      .ok ((List.range x.kind.width).map fun i => UInt8.ofNat (x.bits / 256 ^ i % 256)) := by
  rw [encode, emission, encodeAt, ← LittleEndian.ofNat_eq_map]
  simp only [if_pos]
  rfl

/-- A pattern in hexadecimal is accepted for a scalar of any kind exactly if the field is wide enough
for it. It is then what is written to the wire, in as many bytes, and what an integer kind stands for:
in two's complement if it is signed. A number is accepted for an integer kind exactly if it is in
range, and is then the integer of the scalar. -/
theorem valueOfJson_scalar (kind : ScalarKind) (s t : Selections) :
    (∀ (text : String) (n : Nat), hexNumber? text = some n →
      ((∃ value, (Shape.scalar kind).valueOfJson (.string text) s = .ok value) ↔
        n < 2 ^ (8 * kind.width)) ∧
      ∀ value, (Shape.scalar kind).valueOfJson (.string text) s = .ok value →
        (Shape.scalar kind).encode value t =
            .ok ((List.range kind.width).map fun i => UInt8.ofNat (n / 256 ^ i % 256)) ∧
          ∃ x : Scalar, value = .scalar x ∧ x.kind = kind ∧ x.bits = n ∧
            x.toInt = if kind.isSigned then (n : Int).bmod (2 ^ (8 * kind.width)) else n) ∧
    (kind.isFloat = false → ∀ n : Int,
      ((∃ value, (Shape.scalar kind).valueOfJson (.number (.int n)) s = .ok value) ↔
        if kind.isSigned then -2 ^ (8 * kind.width - 1) ≤ n ∧ n < 2 ^ (8 * kind.width - 1)
        else 0 ≤ n ∧ n < 2 ^ (8 * kind.width)) ∧
      ∀ value, (Shape.scalar kind).valueOfJson (.number (.int n)) s = .ok value →
        ∃ x : Scalar, value = .scalar x ∧ x.kind = kind ∧ x.toInt = n) := by
  refine ⟨fun text n hnumber => ⟨⟨?_, ?_⟩, ?_⟩, fun hinteger n => ⟨⟨?_, ?_⟩, ?_⟩⟩
  · rintro ⟨value, hread⟩
    obtain ⟨x, -, rfl, rfl⟩ := (valueOfJson_pattern_eq_ok_iff hnumber).mp hread
    exact x.kind.modulus_eq ▸ x.fits
  · intro hfits
    rw [← kind.modulus_eq] at hfits
    exact ⟨_, (valueOfJson_pattern_eq_ok_iff hnumber).mpr
      ⟨.ofBits kind n, rfl, rfl, Scalar.bits_ofBits hfits⟩⟩
  · intro value hread
    obtain ⟨x, rfl, rfl, rfl⟩ := (valueOfJson_pattern_eq_ok_iff hnumber).mp hread
    refine ⟨encode_scalar x, x, rfl, rfl, rfl, ?_⟩
    rw [← x.kind.modulus_eq]
    cases hsigned : x.kind.isSigned with
    | true => exact Scalar.toInt_eq_bmod hsigned
    | false => exact Scalar.toInt_eq_bits hsigned
  · rintro ⟨value, hread⟩
    obtain ⟨x, -, rfl, rfl⟩ := (valueOfJson_int_eq_ok_iff hinteger).mp hread
    exact (x.kind.inRange_iff x.toInt).mp x.toInt_inRange
  · intro hrange
    obtain ⟨x, hx⟩ := Scalar.exists_toInt ((kind.inRange_iff n).mpr hrange)
    exact ⟨_, (valueOfJson_int_eq_ok_iff hinteger).mpr ⟨x, rfl, hx⟩⟩
  · intro value hread
    exact (valueOfJson_int_eq_ok_iff hinteger).mp hread

/-- In a signed byte `0xFE` is minus two and written as it stands, a ninth bit is refused, and so is
the number 128. -/
theorem valueOfJson_scalar_signedByte :
    (∃ value, (Shape.scalar .i8).valueOfJson (.string "0xF_E") .empty = .ok value ∧
      (Shape.scalar .i8).encode value .empty = .ok [0xfe] ∧
      ∃ x : Scalar, value = .scalar x ∧ x.toInt = -2) ∧
    (¬∃ value, (Shape.scalar .i8).valueOfJson (.string "0x1FE") .empty = .ok value) ∧
    (∃ value, (Shape.scalar .i8).valueOfJson (.number (.int (-128))) .empty = .ok value) ∧
    ¬∃ value, (Shape.scalar .i8).valueOfJson (.number (.int 128)) .empty = .ok value := by
  obtain ⟨hpatterns, hintegers⟩ := valueOfJson_scalar .i8 .empty .empty
  obtain ⟨haccepted, hread⟩ := hpatterns "0xF_E" 254 (by decide)
  obtain ⟨value, hvalue⟩ := haccepted.mpr (by decide)
  obtain ⟨hwritten, x, hx, -, -, hinteger⟩ := hread value hvalue
  refine ⟨⟨value, hvalue, hwritten, x, hx, hinteger.trans (by decide)⟩, ?_, ?_, ?_⟩
  · exact fun h => absurd ((hpatterns "0x1FE" 510 (by decide)).1.mp h) (by decide)
  · exact (hintegers rfl (-128)).1.mpr (by decide)
  · exact fun h => absurd ((hintegers rfl 128).1.mp h) (by decide)

end Shape

end WireParity
