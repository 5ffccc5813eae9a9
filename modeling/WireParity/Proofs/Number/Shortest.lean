import WireParity.Number.Shortest
import WireParity.Proofs.Number.Widening

/-!
# Shortest decimals read back

The shortest decimal of a float is found by asking the reader, so it reads back to the float wherever
the search ends: a decimal on a grid is taken only if it does, the exact value needs no rounding, and
zeros at the end of the digits make no difference to the reader. Nothing has to be known about how many
digits are enough.
-/

namespace WireParity

/-- Rounding looks at the quotient alone. -/
theorem roundDiv_mul_mul (tie : Tie) (num den : Nat) {k : Nat} (hk : 0 < k) :
    roundDiv tie (k * num) (k * den) = roundDiv tie num den := by
  simp only [roundDiv, Nat.mul_div_mul_left num den hk, Nat.mul_mod_mul_left, Nat.mul_left_comm 2 k,
    Nat.mul_lt_mul_left hk]

/-- What is rounded goes to one of its neighbours. -/
theorem roundDiv_eq_or (tie : Tie) (num den : Nat) :
    roundDiv tie num den = num / den ∨ roundDiv tie num den = num / den + 1 := by
  have heven : num / den % 2 < 2 := Nat.mod_lt _ (by decide)
  unfold roundDiv
  dsimp only
  split
  · exact Or.inl rfl
  · split
    · exact Or.inr rfl
    · cases tie with
      | even => dsimp only; omega
      | up => exact Or.inr rfl

/-- The nearest magnitude depends on the quotient alone. -/
theorem FloatFormat.nearest_mul_mul (f : FloatFormat) (num den : Nat) {k : Nat} (hk : 0 < k) :
    f.nearest (k * num) (k * den) = f.nearest num den := by
  simp only [nearest, nearestUnits, Nat.mul_assoc k, Nat.mul_div_mul_left _ den hk,
    roundDiv_mul_mul .even _ _ hk]

/-- Zero is nearest to zero. -/
theorem FloatFormat.nearest_zero {f : FloatFormat} (hprecision : 0 < f.precision) {den : Nat}
    (hden : 0 < den) : f.nearest 0 den = 0 := by
  have hnormal : f.IsNormal 0 0 := ⟨Nat.mul_pos Nat.two_pos f.hidden_pos, Or.inl rfl⟩
  have hnearest := nearestUnits_of_isNormal hprecision hnormal hden
  rw [Nat.zero_mul, Nat.zero_mul, Nat.zero_mul, Nat.zero_add, Nat.min_zero] at hnearest
  rw [nearest, Nat.zero_mul, hnearest]

namespace Decimal

variable {f : FloatFormat}

/-- A decimal with no places after the point is a whole number. -/
theorem toQuotient_natCast (digits k : Nat) :
    toQuotient ⟨digits, (k : Int)⟩ = (digits * 10 ^ k, 1) := by
  cases k with
  | zero => rw [Nat.pow_zero, Nat.mul_one]; rfl
  | succ k => rfl

/-- A decimal with places after the point is a fraction. -/
theorem toQuotient_neg_natCast (digits k : Nat) :
    toQuotient ⟨digits, -(k : Int)⟩ = (digits, 10 ^ k) := by
  rw [toQuotient, Int.neg_neg]
  show (digits, 1 * 10 ^ k) = _
  rw [Nat.one_mul]

/-- A zero at the end of the digits stands for one more in the exponent. -/
theorem read_mul_ten (f : FloatFormat) (digits : Nat) (exponent : Int) :
    read f ⟨digits * 10, exponent⟩ = read f ⟨digits, exponent + 1⟩ := by
  cases exponent with
  | ofNat k =>
    rw [read, read, Int.ofNat_eq_natCast, ← Int.natCast_succ, toQuotient_natCast, toQuotient_natCast,
      Nat.succ_eq_add_one, Nat.pow_succ', Nat.mul_assoc]
  | negSucc k =>
    have hless : Int.negSucc k + 1 = -(k : Int) := by omega
    rw [read, read, hless, Int.negSucc_eq, ← Int.natCast_succ, toQuotient_neg_natCast,
      toQuotient_neg_natCast, Nat.mul_comm, Nat.succ_eq_add_one, Nat.pow_succ']
    exact f.nearest_mul_mul digits (10 ^ k) (by decide)

/-- Digits without zeros at their end are kept, and so are those before zeros. -/
theorem trim_mul_pow {digits : Nat} (hlast : digits % 10 ≠ 0) (k : Nat) (exponent : Int) :
    trim (digits * 10 ^ k) exponent = ⟨digits, exponent + k⟩ := by
  induction k generalizing exponent with
  | zero =>
    rw [Nat.pow_zero, Nat.mul_one, trim, dif_neg fun h => hlast h.2, Int.natCast_zero, Int.add_zero]
  | succ k ih =>
    have hpos : digits * 10 ^ (k + 1) ≠ 0 := by
      have hdigits : digits ≠ 0 := fun h => hlast (by rw [h])
      exact Nat.mul_ne_zero hdigits (Nat.ne_of_gt (Nat.pow_pos (by decide)))
    have hten : digits * 10 ^ (k + 1) = digits * 10 ^ k * 10 := by
      rw [Nat.pow_succ, Nat.mul_assoc]
    have hdiv : digits * 10 ^ (k + 1) / 10 = digits * 10 ^ k := by
      rw [hten, Nat.mul_div_cancel _ (by decide)]
    rw [trim, dif_pos ⟨hpos, by rw [hten, Nat.mul_mod_left]⟩, hdiv, ih, Int.natCast_succ]
    congr 1
    omega

/-- Without zeros at its end a positive number has another digit there. -/
theorem trim_digits_mod_ten {digits : Nat} (hpos : digits ≠ 0) (exponent : Int) :
    (trim digits exponent).digits % 10 ≠ 0 := by
  induction digits, exponent using trim.induct with
  | case1 digits exponent h ih =>
    rw [trim, dif_pos h]
    exact ih (by omega)
  | case2 digits exponent h =>
    rw [trim, dif_neg h]
    exact fun hzero => h ⟨hpos, hzero⟩

/-- Zeros at the end of the digits make no difference to a reader. -/
theorem read_trim (f : FloatFormat) (digits : Nat) (exponent : Int) :
    read f (trim digits exponent) = read f ⟨digits, exponent⟩ := by
  induction digits, exponent using trim.induct with
  | case1 digits exponent h ih =>
    have hten : digits / 10 * 10 = digits := Nat.div_mul_cancel (Nat.dvd_of_mod_eq_zero h.2)
    rw [trim, dif_pos h, ih, ← read_mul_ten, hten]
  | case2 digits exponent h => rw [trim, dif_neg h]

/-- A decimal that is found on a grid reads back. -/
theorem read_of_onGrid? {tie : Tie} {magnitude : Nat} {exponent : Int} {d : Decimal}
    (hfound : onGrid? f tie magnitude exponent = some d) : d.read f = magnitude := by
  unfold onGrid? at hfound
  dsimp only at hfound
  split at hfound
  next hlow =>
    split at hfound
    next hhigh =>
      -- Both neighbours read back, and rounding takes one of them.
      cases hfound
      rcases roundDiv_eq_or tie (scaleDown (f.units magnitude) (Nat.pow 2 f.scale) exponent).1
        (scaleDown (f.units magnitude) (Nat.pow 2 f.scale) exponent).2 with hround | hround
      · rw [hround, hlow]
      · rw [hround, hhigh]
    next =>
      cases hfound
      exact hlow
  next =>
    split at hfound
    next hhigh =>
      cases hfound
      exact hhigh
    next => cases hfound

/-- The exact value of a finite magnitude reads back. -/
theorem read_exact (hprecision : 0 < f.precision) {magnitude : Nat}
    (hfinite : magnitude < f.infinity) : (exact f magnitude).read f = magnitude := by
  obtain ⟨hnormal, hm⟩ := FloatFormat.isNormal_significand f magnitude
  have hnearest := FloatFormat.nearestUnits_of_isNormal hprecision hnormal
    (Nat.pow_pos (n := f.scale) (show 0 < 10 by decide))
  rw [hm, Nat.min_eq_right (Nat.le_of_lt hfinite)] at hnearest
  have hscaled : f.units magnitude * 5 ^ f.scale * 2 ^ f.scale =
      f.units magnitude * 10 ^ f.scale := by
    rw [Nat.mul_assoc, ← Nat.mul_pow]
  rw [read, exact, toQuotient_neg_natCast]
  show f.nearestUnits (f.units magnitude * 5 ^ f.scale * 2 ^ f.scale) (10 ^ f.scale) = magnitude
  rw [hscaled]
  exact hnearest

/-- The shortest decimal of a finite magnitude reads back. -/
theorem read_shortest (hprecision : 0 < f.precision) (tie : Tie) {magnitude : Nat}
    (hfinite : magnitude < f.infinity) : (shortest f tie magnitude).read f = magnitude := by
  rw [shortest, read_trim]
  cases hfound : (List.range 17).findSome? fun n => onGrid? f tie magnitude
      (pointOf (f.units magnitude) (Nat.pow 2 f.scale) - (n + 1 : Nat)) with
  | none => exact read_exact hprecision hfinite
  | some d =>
    obtain ⟨n, -, hgrid⟩ := List.exists_of_findSome?_eq_some hfound
    exact read_of_onGrid? hgrid

/-- A decimal without digits reads as zero. -/
theorem read_zero_digits (hprecision : 0 < f.precision) (exponent : Int) :
    read f ⟨0, exponent⟩ = 0 := by
  obtain ⟨k, rfl | rfl⟩ := exponent.eq_nat_or_neg
  · rw [read, toQuotient_natCast, Nat.zero_mul]
    exact FloatFormat.nearest_zero hprecision Nat.one_pos
  · rw [read, toQuotient_neg_natCast]
    exact FloatFormat.nearest_zero hprecision (Nat.pow_pos (by decide))

/-- The shortest decimal of zero has one zero behind the point. -/
theorem shortest_zero (hprecision : 0 < f.precision) (tie : Tie) : shortest f tie 0 = ⟨0, -1⟩ := by
  have hunits : f.units 0 = 0 := by
    have hnormal : f.IsNormal 0 0 := ⟨Nat.mul_pos Nat.two_pos f.hidden_pos, Or.inl rfl⟩
    simpa only [Nat.zero_mul] using FloatFormat.units_of_isNormal hnormal
  have hscale : 0 < Nat.pow 2 f.scale := Nat.two_pow_pos _
  have hpoint : pointOf 0 (Nat.pow 2 f.scale) = 0 := by
    rw [pointOf, if_neg (Nat.not_le_of_lt hscale), Nat.div_zero]
    rfl
  have hround : roundDiv tie 0 (Nat.pow 2 f.scale) = 0 := by
    have hmul := roundDiv_mul_right tie 0 hscale
    rwa [Nat.zero_mul] at hmul
  -- The first grid that is tried has zero on it.
  have hgrid : onGrid? f tie 0 (-1) = some ⟨0, -1⟩ := by
    unfold onGrid?
    rw [hunits]
    have hquotient : scaleDown 0 (Nat.pow 2 f.scale) (-1) = (0, Nat.pow 2 f.scale) := by
      show (0 * Nat.pow 10 1, _) = _
      rw [Nat.zero_mul]
    simp only [hquotient, Nat.zero_div, read_zero_digits hprecision, hround, if_true, ite_self]
  have hfound : ((List.range 17).findSome? fun n =>
      onGrid? f tie 0 (0 - (n + 1 : Nat))) = some ⟨0, -1⟩ := by
    have hfirst : (0 : Int) - (0 + 1 : Nat) = -1 := rfl
    rw [List.range_succ_eq_map, List.findSome?_cons, hfirst, hgrid]
  rw [shortest, hunits, hpoint]
  simp only [hfound, Option.getD_some]
  rw [trim, dif_neg fun h => h.1 rfl]

/-- The shortest decimal of a positive magnitude ends in a digit other than zero. -/
theorem shortest_digits_mod_ten (hprecision : 0 < f.precision) (tie : Tie) {magnitude : Nat}
    (hpos : magnitude ≠ 0) (hfinite : magnitude < f.infinity) :
    (shortest f tie magnitude).digits % 10 ≠ 0 := by
  have hread := read_shortest hprecision tie hfinite
  rw [shortest] at hread ⊢
  refine trim_digits_mod_ten (fun hzero => hpos ?_) _
  rw [← hread, read_trim, hzero, read_zero_digits hprecision]

end Decimal

end WireParity
