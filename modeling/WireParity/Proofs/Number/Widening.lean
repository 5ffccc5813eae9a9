import WireParity.Number.FloatFormat
import Mathlib.Algebra.Group.Nat.Defs

/-!
# Exact widening of floats

Every finite value of a format is a significand moved up by some powers of two, and `IsNormal` says
which pairs of the two stand for a magnitude. A wider format has room for the same value, perhaps at
another binade, so nothing is rounded on the way there. Nothing is rounded on the way back either,
because the value is still one of the narrower format.

The argument does not depend on particular formats. It needs only that the wider one has no fewer
bits of significand, no coarser a unit, and no smaller a range.
-/

namespace WireParity.FloatFormat

variable {f g : FloatFormat}

/-- The hidden bit has a weight. -/
theorem hidden_pos (f : FloatFormat) : 0 < f.hidden := Nat.pow_pos (by decide)

/-- A significand that a magnitude can have at a binade: the hidden bit may be missing only in the
least one. -/
structure IsNormal (f : FloatFormat) (step q : Nat) : Prop where
  lt : q < 2 * f.hidden
  hidden_le : step = 0 ∨ f.hidden ≤ q

/-- A magnitude has its own significand and binade. -/
theorem isNormal_significand (f : FloatFormat) (m : Nat) :
    f.IsNormal (f.binade m) (f.significand m) ∧ f.binade m * f.hidden + f.significand m = m := by
  have hpos := f.hidden_pos
  have hparts := Nat.div_add_mod m f.hidden
  have hrest := Nat.mod_lt m hpos
  unfold binade significand
  by_cases hsmall : m < f.hidden
  · rw [if_pos hsmall, Nat.div_eq_of_lt hsmall, Nat.zero_sub, Nat.zero_mul, Nat.zero_add]
    exact ⟨⟨by omega, Or.inl rfl⟩, rfl⟩
  · rw [if_neg hsmall]
    obtain ⟨k, hk⟩ : ∃ k, m / f.hidden = k + 1 :=
      Nat.exists_eq_add_of_le' (Nat.div_pos (Nat.le_of_not_lt hsmall) hpos)
    rw [hk, Nat.mul_add_one, Nat.mul_comm] at hparts
    rw [hk, Nat.add_sub_cancel]
    exact ⟨⟨by omega, Or.inr (Nat.le_add_left _ _)⟩, by omega⟩

/-- A significand and a binade determine how many units their magnitude is. -/
theorem units_of_isNormal {step q : Nat} (hnormal : f.IsNormal step q) :
    f.units (step * f.hidden + q) = q * 2 ^ step := by
  have hlt := hnormal.lt
  unfold units significand binade
  by_cases hsmall : q < f.hidden
  · obtain rfl : step = 0 := hnormal.hidden_le.resolve_right (Nat.not_le_of_lt hsmall)
    rw [Nat.zero_mul, Nat.zero_add, if_pos hsmall, Nat.div_eq_of_lt hsmall]
    rfl
  · obtain ⟨r, rfl⟩ := Nat.exists_eq_add_of_le (Nat.le_of_not_lt hsmall)
    have hr : r < f.hidden := by omega
    have hsum : step * f.hidden + (f.hidden + r) = r + f.hidden * (step + 1) := by
      rw [Nat.mul_add_one, Nat.mul_comm]
      omega
    have hlarge : ¬r + f.hidden * (step + 1) < f.hidden := by
      rw [Nat.mul_add_one]
      omega
    rw [hsum, if_neg hlarge, Nat.add_mul_mod_self_left, Nat.mod_eq_of_lt hr,
      Nat.add_mul_div_left r _ f.hidden_pos, Nat.div_eq_of_lt hr, Nat.zero_add,
      Nat.add_sub_cancel, Nat.add_comm r]
    rfl

/-- Twice the hidden bit is the first significand that is too long. -/
theorem two_mul_hidden (hprecision : 0 < f.precision) : 2 * f.hidden = 2 ^ f.precision := by
  show 2 * 2 ^ (f.precision - 1) = 2 ^ f.precision
  rw [← Nat.pow_succ', Nat.succ_eq_add_one, Nat.sub_one_add_one_eq_of_pos hprecision]

/-- The binade of a value is the one that the rounding step looks for. -/
theorem log2_of_isNormal (hprecision : 0 < f.precision) {step q : Nat}
    (hnormal : f.IsNormal step q) : Nat.log2 (q * 2 ^ step) + 1 - f.precision = step := by
  have hlt : q < 2 ^ f.precision := two_mul_hidden hprecision ▸ hnormal.lt
  rcases hnormal.hidden_le with rfl | hle
  · rw [Nat.pow_zero, Nat.mul_one]
    by_cases hzero : q = 0
    · subst hzero
      rw [Nat.log2_zero]
      omega
    · have := (Nat.log2_lt hzero).mpr hlt
      omega
  · replace hle : 2 ^ (f.precision - 1) ≤ q := hle
    have hq : q ≠ 0 := Nat.ne_of_gt (Nat.lt_of_lt_of_le (Nat.two_pow_pos _) hle)
    have hlog : Nat.log2 (q * 2 ^ step) = f.precision - 1 + step := by
      rw [Nat.log2_eq_iff (Nat.mul_ne_zero hq (Nat.ne_of_gt (Nat.two_pow_pos step)))]
      refine ⟨?_, ?_⟩
      · rw [Nat.pow_add]
        exact Nat.mul_le_mul_right _ hle
      · rw [show f.precision - 1 + step + 1 = f.precision + step by omega, Nat.pow_add]
        exact Nat.mul_lt_mul_of_pos_right hlt (Nat.two_pow_pos step)
    omega

/-- A value of the format is not rounded, unless it is too large. -/
theorem nearestUnits_of_isNormal (hprecision : 0 < f.precision) {step q : Nat}
    (hnormal : f.IsNormal step q) {den : Nat} (hden : 0 < den) :
    f.nearestUnits (q * 2 ^ step * den) den = min f.infinity (step * f.hidden + q) := by
  have hexact : roundDiv .even (q * 2 ^ step * den) (den * Nat.pow 2 step) = q := by
    rw [Nat.mul_assoc, Nat.mul_comm (2 ^ step)]
    exact roundDiv_mul_right .even q (Nat.mul_pos hden (Nat.two_pow_pos step))
  unfold nearestUnits
  simp only [Nat.mul_div_cancel _ hden, log2_of_isNormal hprecision hnormal, hexact]

/-- Whatever is short enough for a significand can be normalized, without a change of value. -/
theorem exists_isNormal (f : FloatFormat) (k : Nat) {q : Nat} (hq : q < 2 * f.hidden) :
    ∃ step r, f.IsNormal step r ∧ r * 2 ^ step = q * 2 ^ k := by
  induction k generalizing q with
  | zero => exact ⟨0, q, ⟨hq, Or.inl rfl⟩, rfl⟩
  | succ k ih =>
    -- One power of two goes into the significand, until its hidden bit is set.
    by_cases hsmall : q < f.hidden
    · obtain ⟨step, r, hnormal, hvalue⟩ := ih (q := 2 * q) (by omega)
      refine ⟨step, r, hnormal, ?_⟩
      rw [hvalue, Nat.pow_succ', ← Nat.mul_assoc, Nat.mul_comm 2 q]
    · exact ⟨k + 1, q, ⟨hq, Or.inr (Nat.le_of_not_lt hsmall)⟩, rfl⟩

/-- All finite values are below a power of two. -/
theorem units_lt (hprecision : 0 < f.precision) {m : Nat} (hfinite : m < f.infinity) :
    f.units m < 2 ^ (f.precision + (2 ^ f.exponentBits - 3)) := by
  have hquotient : m / f.hidden < 2 ^ f.exponentBits - 1 :=
    Nat.div_lt_of_lt_mul (Nat.mul_comm .. ▸ hfinite)
  have hbinade : f.binade m ≤ 2 ^ f.exponentBits - 3 := by
    unfold binade
    omega
  have hlt : f.significand m < 2 ^ f.precision :=
    two_mul_hidden hprecision ▸ (isNormal_significand f m).1.lt
  calc f.units m < 2 ^ f.precision * 2 ^ f.binade m :=
        Nat.mul_lt_mul_of_pos_right hlt (Nat.two_pow_pos _)
    _ ≤ 2 ^ f.precision * 2 ^ (2 ^ f.exponentBits - 3) :=
        Nat.mul_le_mul_left _ (Nat.pow_le_pow_right Nat.two_pos hbinade)
    _ = 2 ^ (f.precision + (2 ^ f.exponentBits - 3)) := (Nat.pow_add ..).symm

/-- A value below that power of two is finite. -/
theorem lt_infinity_of_isNormal (hprecision : 0 < f.precision) (hexponent : 2 ≤ f.exponentBits)
    {step q : Nat} (hnormal : f.IsNormal step q)
    (hvalue : q * 2 ^ step < 2 ^ (f.precision + (2 ^ f.exponentBits - 3))) :
    step * f.hidden + q < f.infinity := by
  have hfour : 2 ^ 2 ≤ 2 ^ f.exponentBits := Nat.pow_le_pow_right Nat.two_pos hexponent
  have hstep : step + 2 ≤ 2 ^ f.exponentBits - 1 := by
    rcases hnormal.hidden_le with rfl | hle
    · omega
    · have hpower : 2 ^ (f.precision - 1 + step) < 2 ^ (f.precision + (2 ^ f.exponentBits - 3)) :=
        Nat.lt_of_le_of_lt (Nat.pow_add .. ▸ Nat.mul_le_mul_right _ hle) hvalue
      have := (Nat.pow_lt_pow_iff_right Nat.one_lt_two).mp hpower
      omega
  calc step * f.hidden + q < step * f.hidden + 2 * f.hidden :=
        Nat.add_lt_add_left hnormal.lt _
    _ = (step + 2) * f.hidden := (Nat.add_mul ..).symm
    _ ≤ (2 ^ f.exponentBits - 1) * f.hidden := Nat.mul_le_mul_right _ hstep

/-- The other format has room for every finite value of this one. -/
structure Widens (f g : FloatFormat) : Prop where
  precision_pos : 0 < f.precision
  precision_le : f.precision ≤ g.precision
  two_le_exponentBits : 2 ≤ g.exponentBits
  scale_le : f.scale ≤ g.scale
  range_le : f.precision + (2 ^ f.exponentBits - 3) + (g.scale - f.scale) ≤
    g.precision + (2 ^ g.exponentBits - 3)

/-- Double precision has room for single precision. -/
theorem binary32_widens : binary32.Widens binary64 := by
  constructor <;> decide

/-- Double precision has room for itself. -/
theorem binary64_widens : binary64.Widens binary64 := by
  constructor <;> decide

/-- A finite value has a magnitude in a format with room for it, which is the nearest one. -/
theorem Widens.exists_magnitude (hwidens : f.Widens g) {m : Nat} (hfinite : m < f.infinity) :
    ∃ n, n < g.infinity ∧ g.nearest (f.units m) (2 ^ f.scale) = n ∧
      g.units n = f.units m * 2 ^ (g.scale - f.scale) := by
  obtain ⟨hprecision, hle, hexponent, hscale, hrange⟩ := hwidens
  have hgpos : 0 < g.precision := Nat.lt_of_lt_of_le hprecision hle
  have hshort : f.significand m < 2 * g.hidden := by
    apply Nat.lt_of_lt_of_le (isNormal_significand f m).1.lt
    rw [two_mul_hidden hprecision, two_mul_hidden hgpos]
    exact Nat.pow_le_pow_right Nat.two_pos hle
  obtain ⟨step, q, hnormal, hvalue⟩ :=
    exists_isNormal g (f.binade m + (g.scale - f.scale)) hshort
  rw [Nat.pow_add, ← Nat.mul_assoc] at hvalue
  replace hvalue : q * 2 ^ step = f.units m * 2 ^ (g.scale - f.scale) := hvalue
  have hinfinity : step * g.hidden + q < g.infinity := by
    apply lt_infinity_of_isNormal hgpos hexponent hnormal
    rw [hvalue]
    calc f.units m * 2 ^ (g.scale - f.scale)
        < 2 ^ (f.precision + (2 ^ f.exponentBits - 3)) * 2 ^ (g.scale - f.scale) :=
          Nat.mul_lt_mul_of_pos_right (units_lt hprecision hfinite) (Nat.two_pow_pos _)
      _ = 2 ^ (f.precision + (2 ^ f.exponentBits - 3) + (g.scale - f.scale)) :=
          (Nat.pow_add ..).symm
      _ ≤ 2 ^ (g.precision + (2 ^ g.exponentBits - 3)) := Nat.pow_le_pow_right Nat.two_pos hrange
  have hscaled : f.units m * 2 ^ g.scale = q * 2 ^ step * 2 ^ f.scale := by
    rw [hvalue, Nat.mul_assoc, ← Nat.pow_add, Nat.sub_add_cancel hscale]
  refine ⟨step * g.hidden + q, hinfinity, ?_, (units_of_isNormal hnormal).trans hvalue⟩
  show g.nearestUnits (f.units m * 2 ^ g.scale) (2 ^ f.scale) = _
  rw [hscaled, nearestUnits_of_isNormal hgpos hnormal (Nat.two_pow_pos _)]
  exact Nat.min_eq_right (Nat.le_of_lt hinfinity)

/-- A value that came from the narrower format is nearest to the magnitude it came from. -/
theorem Widens.nearest_units (hwidens : f.Widens g) {m : Nat} (hfinite : m < f.infinity) :
    f.nearest (f.units m * 2 ^ (g.scale - f.scale)) (2 ^ g.scale) = m := by
  obtain ⟨hnormal, hm⟩ := isNormal_significand f m
  show f.nearestUnits (f.units m * 2 ^ (g.scale - f.scale) * 2 ^ f.scale) (2 ^ g.scale) = m
  rw [Nat.mul_assoc, ← Nat.pow_add, Nat.sub_add_cancel hwidens.scale_le]
  have hnearest := nearestUnits_of_isNormal hwidens.precision_pos hnormal (Nat.two_pow_pos g.scale)
  rw [hm, Nat.min_eq_right (Nat.le_of_lt hfinite)] at hnearest
  exact hnearest

/-- Infinity is a magnitude. -/
theorem infinity_lt_signWeight (f : FloatFormat) : f.infinity < f.signWeight :=
  Nat.mul_lt_mul_of_pos_right (Nat.sub_lt (Nat.two_pow_pos _) Nat.one_pos) f.hidden_pos

/-- A signed magnitude has this magnitude. -/
theorem magnitude_withSign {negative : Bool} {m : Nat} (hm : m < f.signWeight) :
    f.magnitude (f.withSign negative m) = m := by
  unfold magnitude withSign
  cases negative with
  | false => exact Nat.mod_eq_of_lt hm
  | true => exact (Nat.add_mod_left ..).trans (Nat.mod_eq_of_lt hm)

/-- A signed magnitude has this sign. -/
theorem isNegative_withSign {negative : Bool} {m : Nat} (hm : m < f.signWeight) :
    f.isNegative (f.withSign negative m) = negative := by
  unfold isNegative withSign
  cases negative with
  | false => exact decide_eq_false (Nat.not_le_of_lt hm)
  | true => exact decide_eq_true (Nat.le_add_right ..)

/-- A pattern is its magnitude with its sign. -/
theorem withSign_isNegative_magnitude {bits : Nat} (hbits : bits < 2 * f.signWeight) :
    f.withSign (f.isNegative bits) (f.magnitude bits) = bits := by
  unfold magnitude isNegative withSign
  by_cases hnegative : f.signWeight ≤ bits
  · obtain ⟨m, rfl⟩ := Nat.exists_eq_add_of_le hnegative
    rw [decide_eq_true hnegative, if_pos rfl, Nat.add_mod_left, Nat.mod_eq_of_lt (by omega)]
  · rw [decide_eq_false hnegative, if_neg Bool.false_ne_true,
      Nat.mod_eq_of_lt (Nat.lt_of_not_le hnegative)]

/-- What is converted fits the other format. -/
theorem convert_lt (f g : FloatFormat) (bits : Nat) : f.convert g bits < 2 * g.signWeight := by
  have hlt : g.nearest (f.units (f.magnitude bits)) (2 ^ f.scale) < g.signWeight :=
    Nat.lt_of_le_of_lt (Nat.min_le_left ..) g.infinity_lt_signWeight
  show g.withSign (f.isNegative bits) (g.nearest (f.units (f.magnitude bits)) (2 ^ f.scale)) < _
  unfold withSign
  split <;> omega

/-- Widening and narrowing again changes no bit of a finite pattern, the sign of zero included. -/
theorem Widens.convert_convert (hwidens : f.Widens g) {bits : Nat}
    (hbits : bits < 2 * f.signWeight) (hfinite : f.magnitude bits < f.infinity) :
    g.convert f (f.convert g bits) = bits := by
  obtain ⟨n, hn, hnearest, hunits⟩ := hwidens.exists_magnitude hfinite
  have hsmall : n < g.signWeight := Nat.lt_trans hn g.infinity_lt_signWeight
  have hwide : f.convert g bits = g.withSign (f.isNegative bits) n :=
    congrArg (g.withSign (f.isNegative bits)) hnearest
  have hnarrow : f.nearest (g.units n) (2 ^ g.scale) = f.magnitude bits :=
    hunits ▸ hwidens.nearest_units hfinite
  rw [hwide]
  show f.withSign (g.isNegative _) (f.nearest (g.units (g.magnitude _)) (2 ^ g.scale)) = bits
  rw [isNegative_withSign hsmall, magnitude_withSign hsmall, hnarrow,
    withSign_isNegative_magnitude hbits]

end WireParity.FloatFormat
