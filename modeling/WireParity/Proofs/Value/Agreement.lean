import WireParity.Proofs.Value.Fields
import WireParity.Proofs.Value.Induction

/-!
# Parity as a relation

The comparison of values stops at the first difference, and what it is asked for is a text and a
path. `Agrees` says what it decides: scalars agree, arrays agree element by element, and structs
have the same names with agreeing fields. `differenceAt_eq_none_iff` says that no difference is
found exactly between values that agree, whatever path they lie at.

Agreement is transitive. It is symmetric and reflexive only among values that repeat no field name,
since a repeated name is looked up once in the actual value but visited every time in the expected
one.
-/

namespace WireParity

/-- Patterns are the same number when they are one pattern or both zeros. A zero is a number, so
nothing needs to be said about what is not. -/
theorem FloatFormat.sameNumber_iff {f : FloatFormat} {a b : Nat} :
    f.sameNumber a b = true ↔ a = b ∨ (f.magnitude a = 0 ∧ f.magnitude b = 0) := by
  have hnumber : ∀ bits, f.magnitude bits = 0 → f.isNaN bits = false := by
    intro bits hzero
    rw [isNaN, hzero]
    exact decide_eq_false (Nat.not_lt_zero _)
  by_cases hnan : (f.isNaN a || f.isNaN b) = true
  · rw [sameNumber, if_pos hnan, beq_iff_eq]
    refine ⟨Or.inl, ?_⟩
    intro h
    rcases h with h | ⟨ha, hb⟩
    · exact h
    · rw [hnumber a ha, hnumber b hb] at hnan
      cases hnan
  · simp [sameNumber, hnan]

namespace Scalar

/-- Scalars agree when they are of one kind and, as floats of it, the same number or else of one
pattern. -/
theorem agrees_iff {x y : Scalar} :
    x.agrees y = true ↔ x.kind = y.kind ∧
      (x.bits = y.bits ∨ x.kind.isFloat = true ∧ x.kind.format.magnitude x.bits = 0 ∧
        x.kind.format.magnitude y.bits = 0) := by
  rw [agrees, Bool.and_eq_true, decide_eq_true_iff]
  cases hfloat : x.kind.isFloat with
  | true => simp [FloatFormat.sameNumber_iff]
  | false => simp

/-- A scalar agrees with itself. -/
theorem agrees_self (x : Scalar) : x.agrees x = true := agrees_iff.mpr ⟨rfl, Or.inl rfl⟩

/-- Agreement of scalars has no direction. -/
theorem agrees_symm {x y : Scalar} (h : x.agrees y = true) : y.agrees x = true := by
  rw [agrees_iff] at h ⊢
  obtain ⟨hkind, h⟩ := h
  rw [hkind] at h
  refine ⟨hkind.symm, h.imp Eq.symm fun hzero => ⟨hzero.1, hzero.2.2, hzero.2.1⟩⟩

/-- Two scalars that agree with a third agree. -/
theorem agrees_trans {x y z : Scalar} (hxy : x.agrees y = true) (hyz : y.agrees z = true) :
    x.agrees z = true := by
  rw [agrees_iff] at hxy hyz ⊢
  obtain ⟨hkind, hxy⟩ := hxy
  obtain ⟨hkind', hyz⟩ := hyz
  rw [← hkind] at hkind' hyz
  refine ⟨hkind', ?_⟩
  rcases hxy with hxy | ⟨hfloat, hx, hy⟩
  · rw [hxy]
    exact hyz
  · rcases hyz with hyz | ⟨_, _, hz⟩
    · exact Or.inr ⟨hfloat, hx, hyz ▸ hy⟩
    · exact Or.inr ⟨hfloat, hx, hz⟩

end Scalar

namespace Value

/-- The values are equal for the purposes of parity, with fields looked up by name. -/
inductive Agrees : Value → Value → Prop
  /-- Scalars agree as scalars. -/
  | scalar {x y : Scalar} : x.agrees y = true → Agrees (.scalar x) (.scalar y)
  /-- Arrays agree element by element. -/
  | array {xs ys : List Value} :
      xs.length = ys.length →
      (∀ (index : Nat) x y, xs[index]? = some x → ys[index]? = some y → Agrees x y) →
      Agrees (.array xs) (.array ys)
  /-- Structs agree when they have the same names, and each field agrees with the first of its
  name. -/
  | struct {xs ys : List (Named Value)} :
      (∀ name, name ∈ xs.map Named.name ↔ name ∈ ys.map Named.name) →
      (∀ x ∈ xs, ∀ y, fieldIn? x.name ys = some y → Agrees x.item y) →
      Agrees (.struct xs) (.struct ys)
  /-- A tag alone agrees with itself. -/
  | bare (tag : UInt8) : Agrees (.enum tag none) (.enum tag none)
  /-- Enums of one tag agree by their payloads. -/
  | loaded (tag : UInt8) {x y : Value} :
      Agrees x y → Agrees (.enum tag (some x)) (.enum tag (some y))

/-- Elements do not differ exactly if no two at one index do, for arrays of one length. -/
theorem itemsDifference_eq_none_iff {path : String} {index : Nat} {xs ys : List Value}
    (hlength : xs.length = ys.length)
    (hitems : ∀ x ∈ xs, ∀ y path, x.differenceAt y path = none ↔ x.Agrees y) :
    itemsDifference path index xs ys = none ↔
      ∀ (i : Nat) x y, xs[i]? = some x → ys[i]? = some y → x.Agrees y := by
  induction xs generalizing index ys with
  | nil => simp [itemsDifference.eq_def]
  | cons x xs ih =>
    cases ys with
    | nil => cases hlength
    | cons y ys =>
      rw [List.forall_mem_cons] at hitems
      have hrest : itemsDifference path (index + 1) xs ys = none ↔ _ :=
        ih (Nat.succ.inj hlength) hitems.2
      rw [itemsDifference]
      cases hfirst : x.differenceAt y (Path.element path index) with
      | none =>
        have hagrees := (hitems.1 y _).mp hfirst
        simp only [hrest]
        refine ⟨?_, ?_⟩
        · intro h i a b ha hb
          cases i with
          | zero =>
            cases ha
            cases hb
            exact hagrees
          | succ i => exact h i a b ha hb
        · intro h i a b ha hb
          exact h (i + 1) a b ha hb
      | some difference =>
        refine ⟨?_, ?_⟩
        · intro h
          cases h
        · intro h
          have hagrees := (hitems.1 y (Path.element path index)).mpr (h 0 x y rfl rfl)
          rw [hfirst] at hagrees
          cases hagrees

/-- Fields do not differ exactly if each has one of its name that it agrees with. -/
theorem fieldsDifference_eq_none_iff {path : String} {expected actual : List (Named Value)}
    (hfields : ∀ x ∈ expected, ∀ y path, x.item.differenceAt y path = none ↔ x.item.Agrees y) :
    fieldsDifference path expected actual = none ↔
      ∀ x ∈ expected, ∃ y, fieldIn? x.name actual = some y ∧ x.item.Agrees y := by
  induction expected with
  | nil => simp [fieldsDifference]
  | cons x expected ih =>
    obtain ⟨name, item⟩ := x
    rw [List.forall_mem_cons] at hfields
    rw [fieldsDifference, List.forall_mem_cons]
    cases hfound : fieldIn? name actual with
    | none => simp
    | some y =>
      have hsame := hfields.1 y (Path.child path name)
      simp only [Option.some.injEq, exists_eq_left', ← ih hfields.2, ← hsame]
      cases item.differenceAt y (Path.child path name) <;> simp

/-- A field of the actual value is found under each expected name, and no other, exactly if the
names are the same. -/
theorem struct_agrees_iff {xs ys : List (Named Value)} :
    (Value.struct xs).Agrees (.struct ys) ↔
      (∀ x ∈ xs, ∃ y, fieldIn? x.name ys = some y ∧ x.item.Agrees y) ∧
        surplusField? xs ys = none := by
  rw [surplusField?_eq_none]
  refine ⟨?_, ?_⟩
  · intro h
    cases h with
    | struct hnames hfields =>
      refine ⟨fun x hx => ?_, fun y hy => (hnames y.name).mpr (List.mem_map_of_mem hy)⟩
      obtain ⟨y, hfound⟩ := exists_fieldIn? ((hnames x.name).mp (List.mem_map_of_mem hx))
      exact ⟨y, hfound, hfields x hx y hfound⟩
  · intro h
    obtain ⟨hfields, hsurplus⟩ := h
    refine .struct (fun name => ⟨fun hname => ?_, fun hname => ?_⟩) fun x hx y hy => ?_
    · obtain ⟨x, hx, rfl⟩ := List.mem_map.mp hname
      obtain ⟨y, hfound, _⟩ := hfields x hx
      exact List.mem_map.mpr ⟨_, mem_of_fieldIn? hfound, rfl⟩
    · obtain ⟨y, hy, rfl⟩ := List.mem_map.mp hname
      exact hsurplus y hy
    · obtain ⟨other, hfound, hagrees⟩ := hfields x hx
      rw [hy] at hfound
      cases hfound
      exact hagrees

/-- No difference is found exactly between values that agree. -/
theorem differenceAt_eq_none_iff (x y : Value) (path : String) :
    x.differenceAt y path = none ↔ x.Agrees y := by
  induction x generalizing y path with
  | scalar x =>
    cases y with
    | scalar y =>
      rw [differenceAt]
      by_cases hagrees : x.agrees y = true
      · rw [if_pos hagrees]
        exact ⟨fun _ => .scalar hagrees, fun _ => rfl⟩
      · rw [if_neg hagrees]
        refine ⟨fun h => (by cases h), ?_⟩
        intro h
        cases h with
        | scalar h => exact absurd h hagrees
    | _ => exact ⟨fun h => by simp [differenceAt] at h, fun h => by cases h⟩
  | array xs ih =>
    cases y with
    | array ys =>
      rw [differenceAt]
      by_cases hlength : xs.length = ys.length
      · rw [if_pos hlength, itemsDifference_eq_none_iff hlength ih]
        refine ⟨.array hlength, ?_⟩
        intro h
        cases h with
        | array _ hitems => exact hitems
      · rw [if_neg hlength]
        refine ⟨fun h => (by cases h), ?_⟩
        intro h
        cases h with
        | array hsame => exact absurd hsame hlength
    | _ => exact ⟨fun h => by simp [differenceAt] at h, fun h => by cases h⟩
  | struct xs ih =>
    cases y with
    | struct ys =>
      have hfields : fieldsDifference path xs ys = none ↔ _ := fieldsDifference_eq_none_iff ih
      rw [struct_agrees_iff, ← hfields, differenceAt]
      cases fieldsDifference path xs ys <;> simp
    | _ => exact ⟨fun h => by simp [differenceAt] at h, fun h => by cases h⟩
  | bare tag =>
    cases y with
    | enum other payload =>
      rw [differenceAt.eq_def]
      by_cases htag : tag = other
      · subst htag
        cases payload with
        | none => simpa using Agrees.bare tag
        | some y => exact ⟨fun h => by simp at h, fun h => by cases h⟩
      · refine ⟨fun h => by simp [htag] at h, ?_⟩
        intro h
        cases h
        exact absurd rfl htag
    | _ => exact ⟨fun h => by simp [differenceAt] at h, fun h => by cases h⟩
  | loaded tag x ih =>
    cases y with
    | enum other payload =>
      rw [differenceAt.eq_def]
      by_cases htag : tag = other
      · subst htag
        cases payload with
        | none => exact ⟨fun h => by simp at h, fun h => by cases h⟩
        | some y =>
          simp only [if_pos, ih]
          refine ⟨.loaded tag, ?_⟩
          intro h
          cases h with
          | loaded _ hagrees => exact hagrees
      · refine ⟨fun h => by simp [htag] at h, ?_⟩
        intro h
        cases h
        exact absurd rfl htag
    | _ => exact ⟨fun h => by simp [differenceAt] at h, fun h => by cases h⟩

/-- Values agree for the purposes of parity exactly if they are related. -/
theorem agrees_eq_true_iff {x y : Value} : x.agrees y = true ↔ x.Agrees y := by
  rw [agrees, Option.isNone_iff_eq_none, difference?, differenceAt_eq_none_iff]

namespace Agrees

/-- A value that repeats no field name agrees with itself. -/
theorem refl {x : Value} (hdistinct : x.DistinctFields) : x.Agrees x := by
  induction hdistinct with
  | scalar x => exact .scalar x.agrees_self
  | array _ ih =>
    refine .array rfl fun index x y hx hy => ?_
    rw [hx] at hy
    cases hy
    exact ih x (List.mem_of_getElem? hx)
  | struct hnames _ ih =>
    refine .struct (fun _ => Iff.rfl) fun x hx y hy => ?_
    rw [fieldIn?_of_mem hnames hx] at hy
    cases hy
    exact ih x hx
  | bare tag => exact .bare tag
  | loaded tag _ ih => exact .loaded tag ih

/-- Among values that repeat no field name, agreement has no direction. -/
theorem symm {x y : Value} (hagrees : x.Agrees y) (hx : x.DistinctFields) (hy : y.DistinctFields) :
    y.Agrees x := by
  induction hagrees with
  | scalar h => exact .scalar (Scalar.agrees_symm h)
  | array hlength _ ih =>
    rw [distinctFields_array] at hx hy
    refine .array hlength.symm fun index y x hys hxs => ?_
    exact ih index x y hxs hys (hx x (List.mem_of_getElem? hxs)) (hy y (List.mem_of_getElem? hys))
  | struct hnames _ ih =>
    rw [distinctFields_struct] at hx hy
    refine .struct (fun name => (hnames name).symm) fun y hys x hfound => ?_
    -- The field found in `x` is the only one of its name, and so is `y` among its own.
    have hxs := mem_of_fieldIn? hfound
    exact ih _ hxs y.item (fieldIn?_of_mem hy.1 hys) (hx.2 _ hxs) (hy.2 y hys)
  | bare tag => exact .bare tag
  | loaded tag _ ih =>
    rw [distinctFields_loaded] at hx hy
    exact .loaded tag (ih hx hy)

/-- Two values agree if the first agrees with one that agrees with the second. -/
theorem trans {x y z : Value} (hxy : x.Agrees y) (hyz : y.Agrees z) : x.Agrees z := by
  induction hxy generalizing z with
  | scalar hxy =>
    cases hyz with
    | scalar hyz => exact .scalar (Scalar.agrees_trans hxy hyz)
  | @array xs ys hlength _ ih =>
    cases hyz with
    | array hlength' hyz =>
      refine .array (hlength.trans hlength') fun index x z hx hz => ?_
      have hindex : index < ys.length := hlength ▸ (List.getElem?_eq_some_iff.mp hx).1
      have hy : ys[index]? = some ys[index] := List.getElem?_eq_getElem hindex
      exact ih index x _ hx hy (hyz index _ z hy hz)
  | struct hnames _ ih =>
    cases hyz with
    | struct hnames' hyz =>
      refine .struct (fun name => (hnames name).trans (hnames' name)) fun x hx z hz => ?_
      obtain ⟨y, hy⟩ := exists_fieldIn? ((hnames x.name).mp (List.mem_map_of_mem hx))
      exact ih x hx y hy (hyz _ (mem_of_fieldIn? hy) z hz)
  | bare tag => exact hyz
  | loaded tag _ ih =>
    cases hyz with
    | loaded _ hyz => exact .loaded tag (ih hyz)

/-- Of two values that repeat no field name, one agrees with an expected value like the other if
they agree with each other. -/
theorem congr_right {x y z : Value} (hyz : y.Agrees z) (hy : y.DistinctFields)
    (hz : z.DistinctFields) : x.Agrees y ↔ x.Agrees z :=
  ⟨fun h => h.trans hyz, fun h => h.trans (hyz.symm hy hz)⟩

end Agrees

end Value

end WireParity
