import WireParity.Proofs.Shape.Induction
import WireParity.Proofs.Shape.Size
import WireParity.Samples
import Mathlib.Algebra.BigOperators.Intervals

/-!
# The size of a shape without a bound

Sizes are computed with a check after every sum and every product, and an array of static elements is
sized by one of them. `extentAt` is the number of bytes that all of this stands for: a natural number,
summed element by element and field by field, with no limit and no case for static elements. It asks
for a variant wherever one has to be selected, and `Meets` says where that is.

`Exact` joins a computed size to an extent: if every selection is there, the size is the extent below
the limit and refused as too large from the limit on, and otherwise there is no size. It is kept by a
sum of parts whose partial sums are checked, since a part is never longer than the whole.
-/

namespace WireParity

namespace Shape

variable {s s' : Selections} {path path' : String}

mutual

/-- How many bytes a shape takes at a path, without a bound. Nothing is counted for what is not
selected, or selected and not declared. -/
def extentAt (s : Selections) : Shape → String → Nat
  | scalar kind, _ => kind.width
  | array elem count, path =>
    ∑ index ∈ Finset.range count.toNat, elem.extentAt s (Path.element path index)
  | struct fields, path => extentFields s path fields
  | enum variants, path =>
    1 + (s.get? path).elim 0 fun name => extentVariant s path name variants
  | union members, path => (s.get? path).elim 0 fun name => extentMember s path name members

/-- How many bytes fields take together. -/
def extentFields (s : Selections) (path : String) : List (Named Shape) → Nat
  | [] => 0
  | ⟨name, shape⟩ :: rest => shape.extentAt s (Path.child path name) + extentFields s path rest

/-- How many bytes the payload of the variant with a name takes. -/
def extentVariant (s : Selections) (path name : String) : List (Variant Shape) → Nat
  | [] => 0
  | ⟨other, _, payload⟩ :: rest =>
    if other = name then
      match payload with
      | none => 0
      | some shape => shape.extentAt s (Path.child path other)
    else extentVariant s path name rest

/-- How many bytes the member with a name takes. -/
def extentMember (s : Selections) (path name : String) : List (Named Shape) → Nat
  | [] => 0
  | ⟨other, shape⟩ :: rest =>
    if other = name then shape.extentAt s (Path.child path other)
    else extentMember s path name rest

end

/-- On the way through a shape at a path, a variant or member has to be selected at a node, by one of
the names. -/
inductive Meets (s : Selections) : Shape → String → String → List String → Prop
  /-- For an enum it is one of its variants. -/
  | enum (variants : List (Variant Shape)) (path : String) :
      Meets s (.enum variants) path path (variants.map Variant.name)
  /-- For a union it is one of its members. -/
  | union (members : List (Named Shape)) (path : String) :
      Meets s (.union members) path path (members.map Named.name)
  /-- Every element of an array is come to, at its own path. -/
  | element {elem : Shape} {count : UInt64} {path node : String} {names : List String}
      {index : Nat} :
      index < count.toNat → Meets s elem (Path.element path index) node names →
      Meets s (.array elem count) path node names
  /-- Every field of a struct is come to. -/
  | field {fields : List (Named Shape)} {field : Named Shape} {path node : String}
      {names : List String} :
      field ∈ fields → Meets s field.item (Path.child path field.name) node names →
      Meets s (.struct fields) path node names
  /-- Of an enum, the payload of the selected variant is come to. -/
  | payload {variants : List (Variant Shape)} {variant : Variant Shape} {shape : Shape}
      {path node : String} {names : List String} :
      s.get? path = some variant.name →
      (Shape.enum variants).variantNamed? variant.name = some variant →
      variant.payload = some shape →
      Meets s shape (Path.child path variant.name) node names →
      Meets s (.enum variants) path node names
  /-- Of a union, the selected member is come to. -/
  | member {members : List (Named Shape)} {member : Named Shape} {path node : String}
      {names : List String} :
      s.get? path = some member.name →
      (Shape.union members).memberNamed? member.name = some member →
      Meets s member.item (Path.child path member.name) node names →
      Meets s (.union members) path node names

/-- Wherever a variant or member has to be selected, there is a selection, and it is declared. -/
def Resolved (s : Selections) (shape : Shape) (path : String) : Prop :=
  ∀ node names, shape.Meets s path node names → ∃ name ∈ names, s.get? node = some name

/-- A scalar needs no selection. -/
theorem resolved_scalar (kind : ScalarKind) : (Shape.scalar kind).Resolved s path := by
  intro node names hmeets
  cases hmeets

/-- An array needs the selections of its elements. -/
theorem resolved_array_iff {elem : Shape} {count : UInt64} :
    (Shape.array elem count).Resolved s path ↔
      ∀ index < count.toNat, elem.Resolved s (Path.element path index) := by
  refine ⟨fun h index hindex node names hmeets => h node names (.element hindex hmeets), ?_⟩
  intro h node names hmeets
  cases hmeets with
  | element hindex hmeets => exact h _ hindex node names hmeets

/-- A struct needs the selections of its fields. -/
theorem resolved_struct_iff {fields : List (Named Shape)} :
    (Shape.struct fields).Resolved s path ↔
      ∀ field ∈ fields, field.item.Resolved s (Path.child path field.name) := by
  refine ⟨fun h field hfield node names hmeets => h node names (.field hfield hmeets), ?_⟩
  intro h node names hmeets
  cases hmeets with
  | field hfield hmeets => exact h _ hfield node names hmeets

/-- An enum needs a declared variant to be selected. -/
theorem exists_variant_of_resolved {variants : List (Variant Shape)}
    (hresolved : (Shape.enum variants).Resolved s path) :
    ∃ variant, s.get? path = some variant.name ∧
      (Shape.enum variants).variantNamed? variant.name = some variant := by
  obtain ⟨name, hname, hselected⟩ := hresolved path _ (.enum variants path)
  obtain ⟨variant, hfound⟩ := exists_variantNamed? hname
  obtain rfl := name_of_variantNamed? hfound
  exact ⟨variant, hselected, hfound⟩

/-- A union needs a declared member to be selected. -/
theorem exists_member_of_resolved {members : List (Named Shape)}
    (hresolved : (Shape.union members).Resolved s path) :
    ∃ member, s.get? path = some member.name ∧
      (Shape.union members).memberNamed? member.name = some member := by
  obtain ⟨name, hname, hselected⟩ := hresolved path _ (.union members path)
  obtain ⟨member, hfound⟩ := exists_memberNamed? hname
  obtain rfl := name_of_memberNamed? hfound
  exact ⟨member, hselected, hfound⟩

/-- Once a declared variant is selected, an enum needs the selections of its payload. -/
theorem resolved_enum_iff {variants : List (Variant Shape)} {variant : Variant Shape}
    (hselected : s.get? path = some variant.name)
    (hfound : (Shape.enum variants).variantNamed? variant.name = some variant) :
    (Shape.enum variants).Resolved s path ↔ ∀ shape, variant.payload = some shape →
      shape.Resolved s (Path.child path variant.name) := by
  refine ⟨fun h shape hpayload node names hmeets =>
    h node names (.payload hselected hfound hpayload hmeets), ?_⟩
  intro h node names hmeets
  cases hmeets with
  | enum => exact ⟨variant.name, List.mem_map_of_mem (List.mem_of_find?_eq_some hfound), hselected⟩
  | payload hselected' hfound' hpayload' hmeets =>
    rw [hselected, Option.some.injEq] at hselected'
    rw [← hselected', hfound, Option.some.injEq] at hfound'
    subst hfound'
    exact h _ hpayload' node names hmeets

/-- Once a declared member is selected, a union needs the selections of that member. -/
theorem resolved_union_iff {members : List (Named Shape)} {member : Named Shape}
    (hselected : s.get? path = some member.name)
    (hfound : (Shape.union members).memberNamed? member.name = some member) :
    (Shape.union members).Resolved s path ↔
      member.item.Resolved s (Path.child path member.name) := by
  refine ⟨fun h node names hmeets => h node names (.member hselected hfound hmeets), ?_⟩
  intro h node names hmeets
  cases hmeets with
  | union => exact ⟨member.name, List.mem_map_of_mem (mem_of_memberNamed? hfound), hselected⟩
  | member hselected' hfound' hmeets =>
    rw [hselected, Option.some.injEq] at hselected'
    rw [← hselected', hfound, Option.some.injEq] at hfound'
    subst hfound'
    exact h node names hmeets

section Static

/-- Static fields have one extent if each has. -/
theorem extentFields_congr {fields : List (Named Shape)}
    (hfields : ∀ field ∈ fields, ∀ path path',
      field.item.extentAt s path = field.item.extentAt s' path') :
    extentFields s path fields = extentFields s' path' fields := by
  induction fields with
  | nil => rfl
  | cons field fields ih =>
    rw [List.forall_mem_cons] at hfields
    rw [extentFields, extentFields, hfields.1 _ (Path.child path' field.name), ih hfields.2]

/-- A static shape has one extent, wherever it lies and whatever is selected. -/
theorem extentAt_of_isStatic {shape : Shape} (hstatic : shape.isStatic = true)
    (path path' : String) : shape.extentAt s path = shape.extentAt s' path' := by
  induction shape generalizing path path' with
  | scalar kind => rfl
  | array elem count ih =>
    by_cases hcount : count = 0
    · subst hcount
      rfl
    · have helem := isStatic_of_array hstatic hcount
      rw [extentAt, extentAt]
      exact Finset.sum_congr rfl fun index _ => ih helem _ _
  | struct fields ih =>
    rw [isStatic, fieldsStatic_eq_true] at hstatic
    rw [extentAt, extentAt]
    exact extentFields_congr fun field hfield => ih field hfield (hstatic field hfield)
  | enum variants => cases hstatic
  | union members => cases hstatic

/-- A static shape needs no selection. -/
theorem resolved_of_isStatic {shape : Shape} (hstatic : shape.isStatic = true) :
    shape.Resolved s path := by
  induction shape generalizing path with
  | scalar kind => exact resolved_scalar kind
  | array elem count ih =>
    rw [resolved_array_iff]
    intro index hindex
    by_cases hcount : count = 0
    · subst hcount
      exact absurd hindex (Nat.not_lt_zero index)
    · exact ih (isStatic_of_array hstatic hcount)
  | struct fields ih =>
    rw [isStatic, fieldsStatic_eq_true] at hstatic
    rw [resolved_struct_iff]
    exact fun field hfield => ih field hfield (hstatic field hfield)
  | enum variants => cases hstatic
  | union members => cases hstatic

end Static

end Shape

/-- A computed size is exact for a length: it measures the length if everything it depends on is
resolved, and is refused as too large where the length is; otherwise there is no size. -/
structure Exact (size : Except CodecError Nat) (resolved : Prop) (length : Nat) : Prop where
  measures : resolved → Measures size length
  overflow : resolved → sizeLimit ≤ length →
    ∃ path, size = .error ⟨path, .invalidDescriptor .sizeOverflow⟩
  resolved_of_ok : ∀ n, size = .ok n → resolved

namespace Exact

variable {size first : Except CodecError Nat} {next : Nat → Except CodecError Nat}
  {resolved resolved' : Prop} {path : String} {length part whole total : Nat}

/-- A size that is exact is there exactly if everything is resolved and the length is below the
limit. -/
theorem eq_ok_iff (h : Exact size resolved length) {n : Nat} :
    size = .ok n ↔ resolved ∧ length = n ∧ n < sizeLimit := by
  refine ⟨fun hsize => ?_, ?_⟩
  · have hresolved := h.resolved_of_ok n hsize
    obtain ⟨rfl, hlimit⟩ := (h.measures hresolved n).mp hsize
    exact ⟨hresolved, rfl, hlimit⟩
  · rintro ⟨hresolved, rfl, hlimit⟩
    exact (h.measures hresolved).eq_ok hlimit

/-- What an exact size depends on, and its length, may be put in other words. -/
theorem congr (h : Exact size resolved length) (hresolved : resolved' ↔ resolved)
    (hlength : whole = length) : Exact size resolved' whole := by
  rw [hlength, propext hresolved]
  exact h

/-- A size below the limit that depends on nothing is exact. -/
theorem of_ok (hlimit : length < sizeLimit) : Exact (.ok length) True length where
  measures _ := measures_ok hlimit
  overflow _ hlength := absurd hlimit (Nat.not_lt.mpr hlength)
  resolved_of_ok _ _ := trivial

/-- A checked size is exact for the number that is checked. -/
theorem of_checkedSize (path : String) (length : Nat) :
    Exact (checkedSize path length) True length where
  measures _ := measures_checkedSize path length
  overflow _ hlength := ⟨path, by rw [checkedSize, if_neg (Nat.not_lt.mpr hlength)]⟩
  resolved_of_ok _ _ := trivial

/-- Where something is not resolved and there is no size, the size is exact for any length. -/
theorem of_unresolved (hresolved : ¬resolved) (hsize : ∀ n, size ≠ .ok n) :
    Exact size resolved length where
  measures h := absurd h hresolved
  overflow h := absurd h hresolved
  resolved_of_ok n h := absurd h (hsize n)

/-- A size computed from an exact part is exact once it is for that part, if the part is no longer
than the whole. -/
theorem bind (hfirst : Exact first resolved part) (hle : part ≤ whole)
    (hnext : part < sizeLimit → Exact (next part) resolved' whole) :
    Exact (first >>= next) (resolved ∧ resolved') whole where
  measures h := (hfirst.measures h.1).bind hle fun hpart => (hnext hpart).measures h.2
  overflow h hwhole := by
    by_cases hpart : part < sizeLimit
    · obtain ⟨path, hpath⟩ := (hnext hpart).overflow h.2 hwhole
      refine ⟨path, ?_⟩
      rw [(hfirst.measures h.1).eq_ok hpart]
      exact hpath
    · -- The part alone is too large, so the whole is refused where the part was.
      obtain ⟨path, hpath⟩ := hfirst.overflow h.1 (Nat.not_lt.mp hpart)
      refine ⟨path, ?_⟩
      rw [hpath]
      rfl
  resolved_of_ok n h := by
    obtain ⟨middle, hmiddle, h⟩ := bind_eq_ok_iff.mp h
    obtain ⟨hresolved, rfl, hpart⟩ := hfirst.eq_ok_iff.mp hmiddle
    exact ⟨hresolved, (hnext hpart).resolved_of_ok n h⟩

/-- A total that takes in one more exact part is checked before it is summed further. -/
theorem add_bind (hone : Exact first resolved part) (hle : total + part ≤ whole)
    (hnext : total + part < sizeLimit → Exact (next (total + part)) resolved' whole) :
    Exact (first >>= fun size => checkedSize path (total + size) >>= next)
      (resolved ∧ resolved') whole := by
  refine hone.bind (by omega) fun _ => ?_
  exact ((of_checkedSize path (total + part)).bind hle hnext).congr (and_iff_right trivial).symm rfl

end Exact

namespace Shape

variable {s : Selections} {path : String}

/-- The sizes of elements are summed exactly if each is exact. -/
theorem exact_sumSizes {size : Nat → Except CodecError Nat} {resolved : Nat → Prop}
    {length : Nat → Nat} (hsize : ∀ index, Exact (size index) (resolved index) (length index))
    {count index total : Nat} (htotal : total < sizeLimit) :
    Exact (sumSizes path size count index total) (∀ i < count, resolved (index + i))
      (total + ∑ i ∈ Finset.range count, length (index + i)) := by
  induction count generalizing index total with
  | zero => exact (Exact.of_ok htotal).congr (by simp) (by simp)
  | succ count ih =>
    rw [sumSizes]
    have hrest : total + length index < sizeLimit →
        Exact (sumSizes path size count (index + 1) (total + length index))
          (∀ i < count, resolved (index + 1 + i))
          (total + length index + ∑ i ∈ Finset.range count, length (index + 1 + i)) := ih
    refine ((hsize index).add_bind (Nat.le_add_right _ _) hrest).congr ?_ ?_
    · rw [Nat.forall_lt_succ_left]
      simp only [Nat.add_zero, Nat.add_assoc, Nat.add_comm 1]
    · rw [Finset.sum_range_succ']
      simp only [Nat.add_zero, Nat.add_assoc, Nat.add_comm 1]
      omega

/-- The sizes of fields are summed exactly if each is exact. -/
theorem exact_sizeFields {fields : List (Named Shape)}
    (hfields : ∀ field ∈ fields, ∀ path, Exact (field.item.sizeAt s path)
      (field.item.Resolved s path) (field.item.extentAt s path))
    {total : Nat} (htotal : total < sizeLimit) :
    Exact (sizeFields s path total fields)
      (∀ field ∈ fields, field.item.Resolved s (Path.child path field.name))
      (total + extentFields s path fields) := by
  induction fields generalizing total with
  | nil => exact (Exact.of_ok htotal).congr (by simp) rfl
  | cons field fields ih =>
    obtain ⟨name, shape⟩ := field
    rw [List.forall_mem_cons] at hfields
    rw [sizeFields, extentFields, ← Nat.add_assoc, List.forall_mem_cons]
    exact (hfields.1 (Path.child path name)).add_bind (Nat.le_add_right _ _)
      fun hsum => ih hfields.2 hsum

/-- What a variant may carry is sized exactly if it is as a shape. -/
theorem exact_sizePayload {name : String} {payload : Option Shape}
    (hpayload : ∀ shape, payload = some shape → ∀ path, Exact (shape.sizeAt s path)
      (shape.Resolved s path) (shape.extentAt s path)) :
    Exact (sizePayload s path name payload)
      (∀ shape, payload = some shape → shape.Resolved s (Path.child path name))
      (payload.elim 0 fun shape => shape.extentAt s (Path.child path name)) := by
  cases payload with
  | none => exact (Exact.of_ok sizeLimit_pos).congr (by simp) rfl
  | some shape => exact (hpayload shape rfl (Path.child path name)).congr (by simp) rfl

/-- The variant whose payload counts is looked up by its name. -/
theorem extentVariant_eq (name : String) (variants : List (Variant Shape)) :
    extentVariant s path name variants =
      ((Shape.enum variants).variantNamed? name).elim 0 fun variant =>
        variant.payload.elim 0 fun shape => shape.extentAt s (Path.child path variant.name) := by
  refine search_eq_find? (extentVariant s path name) rfl (fun variant rest => ?_) variants
  obtain ⟨other, tag, declared⟩ := variant
  cases declared <;> rfl

/-- The member that counts is looked up by its name. -/
theorem extentMember_eq (name : String) (members : List (Named Shape)) :
    extentMember s path name members =
      ((Shape.union members).memberNamed? name).elim 0 fun member =>
        member.item.extentAt s (Path.child path member.name) :=
  search_eq_find? (extentMember s path name) rfl (fun ⟨_, _⟩ _ => rfl) members

/-- The size of a shape is exact at every path. -/
theorem exact_sizeAt (shape : Shape) (path : String) :
    Exact (shape.sizeAt s path) (shape.Resolved s path) (shape.extentAt s path) := by
  induction shape generalizing path with
  | scalar kind =>
    rw [sizeAt, extentAt]
    exact (Exact.of_ok (width_lt_sizeLimit kind)).congr (iff_true_intro (resolved_scalar kind)) rfl
  | array elem count ih =>
    rw [sizeAt]
    by_cases hcount : count = 0
    · subst hcount
      have hstatic : (Shape.array elem 0).isStatic = true := rfl
      rw [if_pos rfl]
      exact (Exact.of_ok sizeLimit_pos).congr (iff_true_intro (resolved_of_isStatic hstatic)) rfl
    · rw [if_neg hcount]
      by_cases helem : elem.isStatic = true
      · have hpos : 0 < count.toNat := toNat_pos_of_ne_zero hcount
        have hstatic : (Shape.array elem count).isStatic = true := by simp [isStatic, helem]
        rw [if_pos helem]
        refine ((ih path).bind (Nat.le_mul_of_pos_right _ hpos) fun _ =>
          Exact.of_checkedSize path _).congr ?_ ?_
        · simp [resolved_of_isStatic hstatic, resolved_of_isStatic helem]
        · -- The elements have one extent, which is taken at the path of the array itself.
          have hsame : ∀ index ∈ Finset.range count.toNat,
              elem.extentAt s (Path.element path index) = elem.extentAt s path :=
            fun index _ => extentAt_of_isStatic helem _ _
          rw [extentAt, Finset.sum_congr rfl hsame, Finset.sum_const, Finset.card_range,
            Nat.nsmul_eq_mul, Nat.mul_comm]
      · rw [if_neg helem]
        refine (exact_sumSizes (fun index => ih (Path.element path index)) sizeLimit_pos).congr ?_ ?_
        · simp [resolved_array_iff]
        · simp [extentAt]
  | struct fields ih =>
    rw [sizeAt, extentAt]
    exact (exact_sizeFields ih sizeLimit_pos).congr resolved_struct_iff (Nat.zero_add _).symm
  | enum variants ih =>
    by_cases hchosen : ∃ variant, s.get? path = some variant.name ∧
        (Shape.enum variants).variantNamed? variant.name = some variant
    · obtain ⟨variant, hselected, hfound⟩ := hchosen
      have hpayload : Exact (sizePayload s path variant.name variant.payload)
          (∀ shape, variant.payload = some shape → shape.Resolved s (Path.child path variant.name))
          (variant.payload.elim 0 fun shape => shape.extentAt s (Path.child path variant.name)) :=
        exact_sizePayload fun shape hshape =>
          ih variant (List.mem_of_find?_eq_some hfound) shape hshape
      rw [sizeAt_enum hselected hfound, extentAt, hselected, Option.elim_some, extentVariant_eq,
        hfound, Option.elim_some, Nat.add_comm, resolved_enum_iff hselected hfound]
      exact (hpayload.bind (Nat.le_succ _) fun _ => Exact.of_checkedSize path _).congr
        (and_iff_left trivial).symm rfl
    · exact Exact.of_unresolved (fun h => hchosen (exists_variant_of_resolved h)) fun _ h =>
        hchosen (exists_variant_of_sizeAt h)
  | union members ih =>
    by_cases hchosen : ∃ member, s.get? path = some member.name ∧
        (Shape.union members).memberNamed? member.name = some member
    · obtain ⟨member, hselected, hfound⟩ := hchosen
      rw [sizeAt_union hselected hfound, extentAt, hselected, Option.elim_some, extentMember_eq,
        hfound, Option.elim_some, resolved_union_iff hselected hfound]
      exact ih member (mem_of_memberNamed? hfound) _
    · exact Exact.of_unresolved (fun h => hchosen (exists_member_of_resolved h)) fun _ h =>
        hchosen (exists_member_of_sizeAt h)

/-- A static shape has one size, wherever it lies and whatever is selected. -/
theorem sizeAt_of_isStatic {shape : Shape} (hstatic : shape.isStatic = true) {s' : Selections}
    {path' : String} {n : Nat} (hsize : shape.sizeAt s path = .ok n) :
    shape.sizeAt s' path' = .ok n := by
  rw [(exact_sizeAt shape path').eq_ok_iff, ← extentAt_of_isStatic hstatic path path']
  exact ⟨resolved_of_isStatic hstatic, ((exact_sizeAt shape path).eq_ok_iff.mp hsize).2⟩

/-- The size of a shape is the number of bytes that it takes without a bound, and never anything
else. There is a size exactly if a declared variant or member is selected wherever one has to be, and
the number is below the limit; if the selections are there and the number is not below the limit, the
shape is refused as too large. -/
theorem size_eq_extent (shape : Shape) (s : Selections) :
    (∀ n, shape.size s = .ok n ↔
      (∀ node names, shape.Meets s Path.root node names → ∃ name ∈ names, s.get? node = some name) ∧
        shape.extentAt s Path.root = n ∧ n < sizeLimit) ∧
    ((∀ node names, shape.Meets s Path.root node names → ∃ name ∈ names, s.get? node = some name) →
      sizeLimit ≤ shape.extentAt s Path.root →
      ∃ path, shape.size s = .error ⟨path, .invalidDescriptor .sizeOverflow⟩) :=
  ⟨fun _ => (exact_sizeAt shape Path.root).eq_ok_iff, (exact_sizeAt shape Path.root).overflow⟩

/-- Two choices of different sizes are summed by their own selections, and so many numbers of eight
bytes that their sizes come to the limit are refused. -/
theorem size_eq_extent_choices :
    let choices : Selections := .ofList [("[0]", "Pair"), ("[1]", "None")]
    let many : Shape := .array (.scalar .u64) (UInt64.ofNat (Nat.pow 2 61))
    (Shape.array Samples.choice 2).extentAt choices Path.root = 6 ∧
      (Shape.array Samples.choice 2).Resolved choices Path.root ∧
      many.Resolved choices Path.root ∧ sizeLimit ≤ many.extentAt choices Path.root ∧
      ∃ path, many.size choices = .error ⟨path, .invalidDescriptor .sizeOverflow⟩ := by
  intro choices many
  have htwo : (Shape.array Samples.choice 2).size choices = .ok 6 := by decide
  obtain ⟨hresolved, hextent, _⟩ := ((size_eq_extent _ choices).1 6).mp htwo
  have hstatic : many.isStatic = true := by decide
  have hmany : many.extentAt choices Path.root = sizeLimit := by
    simp only [many, extentAt, ScalarKind.width, Finset.sum_const, Finset.card_range]
    decide
  have hlarge : sizeLimit ≤ many.extentAt choices Path.root := hmany.ge
  have hneeds : many.Resolved choices Path.root := resolved_of_isStatic hstatic
  exact ⟨hextent, hresolved, hneeds, hlarge, (size_eq_extent many choices).2 hneeds hlarge⟩

end Shape

end WireParity
