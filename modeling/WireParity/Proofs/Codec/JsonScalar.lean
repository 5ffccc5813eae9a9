import WireParity.Codec.FromJson
import WireParity.Codec.ToJson
import WireParity.Proofs.Bytes.Hex
import WireParity.Proofs.Number.Widening
import WireParity.Proofs.Outcome
import WireParity.Proofs.Value.Scalar

/-!
# Scalars through JSON

A scalar is written as an integer, as a double, as the name of an infinity or as the bits of a
not-a-number, and whichever it is, reading it as the kind it came from gives back every bit. A
double holds all of single precision, and the integers of a kind are one for each pattern.
-/

namespace WireParity

namespace ScalarKind

/-- Patterns of a kind of floats are a sign above a magnitude. -/
theorem modulus_eq_of_isFloat {kind : ScalarKind} (hfloat : kind.isFloat = true) :
    kind.modulus = 2 * kind.format.signWeight := by
  cases kind with
  | f32 => rfl
  | f64 => rfl
  | _ => cases hfloat

/-- Double precision has room for every kind of floats. -/
theorem format_widens (kind : ScalarKind) : kind.format.Widens .binary64 := by
  cases kind with
  | f32 => exact FloatFormat.binary32_widens
  | _ => exact FloatFormat.binary64_widens

/-- Half of a kind's patterns have the top bit set. -/
theorem two_mul_half_modulus (kind : ScalarKind) : 2 * (kind.modulus / 2) = kind.modulus := by
  cases kind <;> rfl

end ScalarKind

namespace Scalar

/-- The integer of a scalar is in the range of its kind. -/
theorem toInt_inRange (x : Scalar) : x.kind.least ≤ x.toInt ∧ x.toInt < x.kind.bound := by
  have hfits : x.bits < x.kind.modulus := x.fits
  have hhalf := x.kind.two_mul_half_modulus
  unfold toInt ScalarKind.least ScalarKind.bound
  cases x.kind.isSigned with
  | true =>
    simp only [true_and, if_true]
    split <;> omega
  | false =>
    simp only [Bool.false_eq_true, false_and, if_false]
    omega

/-- The integer of a scalar is congruent to its pattern. -/
theorem toInt_emod (x : Scalar) : x.toInt % (x.kind.modulus : Nat) = x.bits := by
  have hfits : x.bits < x.kind.modulus := x.fits
  have hself : (x.bits : Int) % (x.kind.modulus : Nat) = x.bits :=
    Int.emod_eq_of_lt (Int.natCast_nonneg _) (Int.ofNat_lt.mpr hfits)
  unfold toInt
  split
  · rw [Int.sub_emod_right, hself]
  · exact hself

/-- A scalar is read back from its integer. -/
theorem ofInt?_toInt (x : Scalar) : ofInt? x.kind x.toInt = some x := by
  rw [ofInt?, if_pos x.toInt_inRange, toInt_emod, Int.toNat_natCast, ofBits_bits]

/-- A float is not a number, one of the infinities, or finite. -/
theorem float_cases (x : Scalar) (hfloat : x.kind.isFloat = true) :
    x.kind.format.isNaN x.bits = true ∨
      x.kind.format.isNaN x.bits = false ∧ x.kind.format.isInfinite x.bits = true ∧
        x.bits = x.kind.format.withSign (x.kind.format.isNegative x.bits) x.kind.format.infinity ∨
      x.kind.format.isNaN x.bits = false ∧ x.kind.format.isInfinite x.bits = false ∧
        FloatFormat.convert .binary64 x.kind.format (x.kind.format.convert .binary64 x.bits) =
          x.bits := by
  have hfits : x.bits < 2 * x.kind.format.signWeight :=
    ScalarKind.modulus_eq_of_isFloat hfloat ▸ x.fits
  have hsigned := FloatFormat.withSign_isNegative_magnitude hfits
  unfold FloatFormat.isNaN FloatFormat.isInfinite
  rcases Nat.lt_trichotomy (x.kind.format.magnitude x.bits) x.kind.format.infinity with
    hlt | heq | hgt
  · refine Or.inr (Or.inr ⟨?_, ?_, ?_⟩)
    · exact decide_eq_false (Nat.not_lt_of_lt hlt)
    · exact decide_eq_false (Nat.ne_of_lt hlt)
    · exact x.kind.format_widens.convert_convert hfits hlt
  · refine Or.inr (Or.inl ⟨?_, ?_, ?_⟩)
    · exact decide_eq_false (heq ▸ Nat.lt_irrefl _)
    · exact decide_eq_true heq
    · rw [← heq, hsigned]
  · exact Or.inl (decide_eq_true hgt)

end Scalar

namespace Value

/-- Text that does not begin as another does not have it as its lower case. -/
theorem lowercase_ne {text word : String}
    (h : text.toList.head?.map Char.toLower ≠ word.toList.head?) :
    Text.lowercase text ≠ word := by
  intro hword
  apply h
  rw [← hword, Text.lowercase, String.toList_ofList, List.head?_map]

/-- A word after `0x` is read back, if 64 bits hold it. -/
theorem hexNumber?_word {width n : Nat} (hwidth : 0 < width) (hn : n < 16 ^ width)
    (hbound : n < 2 ^ 64) : hexNumber? ("0x" ++ Hex.word width n) = some n := by
  have hfilter : (Hex.lowDigits width n).reverse.filter (· != '_') =
      (Hex.lowDigits width n).reverse := by
    rw [List.filter_eq_self]
    intro c hc
    exact bne_iff_ne.mpr (Hex.ne_of_mem_lowDigits (List.mem_reverse.mp hc)).2.1
  have htext : ("0x" ++ Hex.word width n).toList =
      '0' :: 'x' :: (Hex.lowDigits width n).reverse := by
    simp only [String.toList_append, Hex.word, String.toList_ofList]
    rfl
  rw [hexNumber?, htext]
  simp only [hfilter]
  exact Hex.numeralBelow?_lowDigits hwidth hn hbound

variable {path : String}

/-- The bits of a float are read back from their hexadecimal text. -/
theorem floatBitsOf_word (x : Scalar) :
    floatBitsOf x.kind path (.string ("0x" ++ Hex.word (2 * x.kind.width) x.bits)) =
      .ok x.bits := by
  have hfits : x.bits < 256 ^ x.kind.width := x.fits
  have hbound : x.bits < 2 ^ 64 := by
    apply Nat.lt_of_lt_of_le hfits
    cases x.kind <;> decide
  have hword : x.bits < 16 ^ (2 * x.kind.width) := by
    rw [Nat.pow_mul]
    exact hfits
  have hwidth : 0 < 2 * x.kind.width := by
    cases x.kind <;> decide
  have hhead : ∀ word : String, some '0' ≠ word.toList.head? →
      Text.lowercase ("0x" ++ Hex.word (2 * x.kind.width) x.bits) ≠ word := by
    intro word hword
    apply lowercase_ne
    rw [String.toList_append]
    exact hword
  have hnan := hhead "nan" (by decide)
  have hinfinite : Text.lowercase ("0x" ++ Hex.word (2 * x.kind.width) x.bits) ∉
      ["inf", "+inf", "infinity"] := by
    simp only [List.mem_cons, List.not_mem_nil, or_false, not_or]
    exact ⟨hhead _ (by decide), hhead _ (by decide), hhead _ (by decide)⟩
  have hnegative : Text.lowercase ("0x" ++ Hex.word (2 * x.kind.width) x.bits) ∉
      ["-inf", "-infinity"] := by
    simp only [List.mem_cons, List.not_mem_nil, or_false, not_or]
    exact ⟨hhead _ (by decide), hhead _ (by decide)⟩
  unfold floatBitsOf
  simp only [if_neg hnan, if_neg hinfinite, if_neg hnegative, hexNumber?_word hwidth hword hbound]
  exact if_pos hfits

/-- A float is read back from what is written for it, bit for bit. -/
theorem floatBitsOf_toJson (x : Scalar) (hfloat : x.kind.isFloat = true) :
    floatBitsOf x.kind path x.toJson = .ok x.bits := by
  unfold Scalar.toJson
  rw [if_pos hfloat]
  rcases x.float_cases hfloat with hnan | ⟨hnan, hinfinite, hbits⟩ | ⟨hnan, hfinite, hbits⟩
  · simp only [hnan, if_true]
    exact floatBitsOf_word x
  · simp only [hnan, hinfinite, Bool.false_eq_true, if_false, if_true]
    cases hnegative : x.kind.format.isNegative x.bits with
    | true =>
      rw [hnegative] at hbits
      exact congrArg Except.ok hbits.symm
    | false =>
      rw [hnegative] at hbits
      exact congrArg Except.ok hbits.symm
  · have hwide : x.kind.format.convert .binary64 x.bits < 2 ^ 64 :=
      FloatFormat.convert_lt x.kind.format .binary64 x.bits
    simp only [hnan, hfinite, Bool.false_eq_true, if_false, floatBitsOf]
    rw [UInt64.toNat_ofNat_of_lt' hwide, hbits]

/-- A scalar is read back from what is written for it. -/
theorem scalarOfJson_toJson (x : Scalar) : scalarOfJson x.kind path x.toJson = .ok (.scalar x) := by
  unfold scalarOfJson
  by_cases hfloat : x.kind.isFloat = true
  · rw [if_pos hfloat, floatBitsOf_toJson x hfloat]
    exact congrArg (fun x => Except.ok (Value.scalar x)) x.ofBits_bits
  · have hjson : x.toJson = .int x.toInt := if_neg hfloat
    rw [if_neg hfloat, hjson, bind_eq_ok_iff]
    refine ⟨x.toInt, rfl, ?_⟩
    rw [x.ofInt?_toInt]

end Value

end WireParity
