import WireParity.Proofs.Value.Leaves

/-!
# Parity and the sign of zero

Parity tells two values apart by the patterns of their scalars, with one exception: the two zeros of
a floating-point format are one number. Writing every zero with the positive sign takes the exception
away. Values agree exactly if what this makes of them has the same scalars at the same places.
-/

namespace WireParity

namespace Scalar

/-- The scalar is a float and the zero with its sign bit set. -/
def isNegativeZero (x : Scalar) : Bool :=
  x.kind.isFloat && x.kind.format.isNegative x.bits && x.kind.format.magnitude x.bits == 0

/-- The scalar, with positive zero in place of negative zero. -/
def unsignZero (x : Scalar) : Scalar := if x.isNegativeZero then ofBits x.kind 0 else x

/-- Scalars are the same when their kinds and patterns are. -/
theorem eq_iff {x y : Scalar} : x = y ↔ x.kind = y.kind ∧ x.bits = y.bits := by
  cases x
  cases y
  rw [Scalar.mk.injEq]

/-- A zero keeps its kind without its sign. -/
@[simp] theorem kind_unsignZero (x : Scalar) : x.unsignZero.kind = x.kind := by
  unfold unsignZero
  split <;> rfl

/-- Both zeros become the pattern of no bits, and all other patterns are kept. -/
theorem bits_unsignZero (x : Scalar) :
    x.unsignZero.bits =
      if x.kind.isFloat = true ∧ x.kind.format.magnitude x.bits = 0 then 0 else x.bits := by
  by_cases hzero : x.kind.isFloat = true ∧ x.kind.format.magnitude x.bits = 0
  · rw [if_pos hzero, unsignZero]
    by_cases hsign : x.kind.format.isNegative x.bits = true
    · rw [if_pos (by simp [isNegativeZero, hzero, hsign])]
      exact Nat.zero_mod _
    · -- Below the weight of the sign, a pattern is its own magnitude.
      have hless : x.bits < x.kind.format.signWeight := by
        simpa [FloatFormat.isNegative] using hsign
      rw [if_neg (by simp [isNegativeZero, hsign])]
      exact (Nat.mod_eq_of_lt hless).symm.trans hzero.2
  · have hother : ¬x.isNegativeZero = true := by
      intro h
      rw [isNegativeZero, Bool.and_eq_true, Bool.and_eq_true, beq_iff_eq] at h
      exact hzero ⟨h.1.1, h.2⟩
    rw [if_neg hzero, unsignZero, if_neg hother]

/-- Scalars agree exactly if they are the same but for the sign of a zero. -/
theorem agrees_iff_unsignZero_eq {x y : Scalar} :
    x.agrees y = true ↔ x.unsignZero = y.unsignZero := by
  rw [agrees_iff, eq_iff, kind_unsignZero, kind_unsignZero]
  refine and_congr_right fun hkind => ?_
  rw [bits_unsignZero, bits_unsignZero, ← hkind]
  cases x.kind.isFloat with
  | false => simp
  | true =>
    have hnone : x.kind.format.magnitude 0 = 0 := Nat.zero_mod _
    by_cases hx : x.kind.format.magnitude x.bits = 0
    · by_cases hy : x.kind.format.magnitude y.bits = 0
      · simp [hx, hy]
      · have hne : x.bits ≠ y.bits := fun h => hy (h ▸ hx)
        have hne' : 0 ≠ y.bits := fun h => hy (h ▸ hnone)
        simp [hx, hy, hne, hne']
    · by_cases hy : x.kind.format.magnitude y.bits = 0
      · have hne : x.bits ≠ 0 := fun h => hx (h ▸ hnone)
        have hne' : x.bits ≠ y.bits := fun h => hx (h ▸ hy)
        simp [hx, hy, hne, hne']
      · simp [hx, hy]

/-- Parity does not see the sign of a zero. -/
theorem agrees_unsignZero (x : Scalar) : x.agrees x.unsignZero = true := by
  rw [agrees_iff]
  refine ⟨x.kind_unsignZero.symm, ?_⟩
  rw [bits_unsignZero]
  by_cases hzero : x.kind.isFloat = true ∧ x.kind.format.magnitude x.bits = 0
  · rw [if_pos hzero]
    exact Or.inr ⟨hzero.1, hzero.2, Nat.zero_mod _⟩
  · rw [if_neg hzero]
    exact Or.inl rfl

end Scalar

namespace Value

/-- The value with positive zero in place of every negative zero. -/
def unsignZeros (value : Value) : Value := value.mapScalars Scalar.unsignZero

/-- Values that agree have the same scalars at the same places, but for the signs of zeros. -/
theorem Agrees.unsignZeros {x y : Value} (hagrees : x.Agrees y) (hdistinct : y.DistinctFields) :
    x.unsignZeros.Matches y.unsignZeros := by
  induction hagrees with
  | @scalar x y h =>
    have hsame : x.unsignZero = y.unsignZero := Scalar.agrees_iff_unsignZero_eq.mp h
    change (Value.scalar x.unsignZero).Matches (Value.scalar y.unsignZero)
    rw [hsame]
    exact .scalar y.unsignZero
  | @array xs ys hlength _ ih =>
    rw [distinctFields_array] at hdistinct
    change (Value.array (mapItems _ xs)).Matches (Value.array (mapItems _ ys))
    rw [mapItems_eq, mapItems_eq]
    refine .array (by simpa using hlength) fun index _ _ hx hy => ?_
    rw [List.getElem?_map, Option.map_eq_some_iff] at hx hy
    obtain ⟨x, hx, rfl⟩ := hx
    obtain ⟨y, hy, rfl⟩ := hy
    exact ih index x y hx hy (hdistinct y (List.mem_of_getElem? hy))
  | @struct xs ys hnames _ ih =>
    rw [distinctFields_struct] at hdistinct
    refine .struct (by simpa only [names_mapFields] using hnames) fun _ hx _ hy hname => ?_
    obtain ⟨x, hxs, rfl⟩ := mem_mapFields _ hx
    obtain ⟨y, hys, rfl⟩ := mem_mapFields _ hy
    -- The names in `ys` are distinct, so `y` is the field that parity looks at.
    have hfound : fieldIn? x.name ys = some y.item := by
      rw [show x.name = y.name from hname]
      exact fieldIn?_of_mem hdistinct.1 hys
    exact ih x hxs y.item hfound (hdistinct.2 y hys)
  | bare tag => exact .bare tag
  | loaded tag _ ih => exact .loaded tag (ih (distinctFields_loaded.mp hdistinct))

/-- A value that repeats no field name agrees with itself without the signs of its zeros. -/
theorem agrees_unsignZeros {x : Value} (hdistinct : x.DistinctFields) : x.Agrees x.unsignZeros := by
  induction hdistinct with
  | scalar x => exact .scalar x.agrees_unsignZero
  | @array items _ ih =>
    change (Value.array items).Agrees (Value.array (mapItems _ items))
    rw [mapItems_eq]
    refine .array (List.length_map _).symm fun index x _ hx hy => ?_
    rw [List.getElem?_map, hx, Option.map_some, Option.some.injEq] at hy
    subst hy
    exact ih x (List.mem_of_getElem? hx)
  | @struct fields hnames _ ih =>
    refine .struct (by simp only [names_mapFields, implies_true]) fun x hx y hfound => ?_
    obtain ⟨old, hold, heq⟩ := mem_mapFields _ (mem_of_fieldIn? hfound)
    obtain ⟨hname, rfl⟩ := Named.mk.inj heq
    have hsame := fieldIn?_of_mem hnames hold
    rw [← hname, fieldIn?_of_mem hnames hx, Option.some.injEq] at hsame
    rw [← hsame]
    exact ih x hx
  | bare tag => exact .bare tag
  | loaded tag _ ih => exact .loaded tag ih

/-- Among values that repeat no field name, those agree that match without the signs of their
zeros. -/
theorem agrees_iff_matches_unsignZeros {x y : Value} (hx : x.DistinctFields)
    (hy : y.DistinctFields) : x.Agrees y ↔ x.unsignZeros.Matches y.unsignZeros := by
  refine ⟨fun h => h.unsignZeros hy, fun h => ?_⟩
  have hback : y.unsignZeros.Agrees y :=
    (agrees_unsignZeros hy).symm hy (hy.mapScalars Scalar.unsignZero)
  exact (agrees_unsignZeros hx).trans (h.related.trans hback)

end Value

end WireParity
