import WireParity.Shape.Size
import WireParity.Proofs.Outcome
import WireParity.Proofs.Shape.Lookup

/-!
# What a computed size says

A size is computed with a check after every sum, so it is either a number of bytes below the limit
or refused. `Measures` joins the two: a size measures a length if it is that length below the limit
and refused at or above it. Sums and products of sizes then measure sums and products of lengths,
and no later proof looks at a check.

The lengths here are natural numbers without a bound. That partial sums never exceed the whole is
what makes the early checks agree with one check at the end.
-/

namespace WireParity

/-- There is a size. -/
theorem sizeLimit_pos : 0 < sizeLimit := by decide

/-- A computed size is a length, or is refused where the length is not below the limit. -/
def Measures (size : Except CodecError Nat) (length : Nat) : Prop :=
  ∀ n, size = .ok n ↔ n = length ∧ length < sizeLimit

/-- A measured length below the limit is the size. -/
theorem Measures.eq_ok {size : Except CodecError Nat} {length : Nat} (h : Measures size length)
    (hlimit : length < sizeLimit) : size = .ok length :=
  (h length).mpr ⟨rfl, hlimit⟩

/-- A size that is known to be below the limit measures itself. -/
theorem measures_ok {length : Nat} (hlimit : length < sizeLimit) : Measures (.ok length) length := by
  intro n
  rw [Except.ok.injEq]
  refine ⟨?_, ?_⟩
  · intro h
    exact ⟨h.symm, hlimit⟩
  · intro h
    exact h.1.symm

/-- A checked size measures the number that is checked. -/
theorem measures_checkedSize (path : String) (length : Nat) :
    Measures (checkedSize path length) length := by
  intro n
  by_cases hlimit : length < sizeLimit
  · rw [checkedSize, if_pos hlimit]
    exact measures_ok hlimit n
  · simp [checkedSize, hlimit]

/-- A size computed from a part measures what it measures once the part is known, if the part is no
longer than the whole. -/
theorem Measures.bind {first : Except CodecError Nat} {next : Nat → Except CodecError Nat}
    {part whole : Nat} (hfirst : Measures first part) (hle : part ≤ whole)
    (hnext : part < sizeLimit → Measures (next part) whole) :
    Measures (first >>= next) whole := by
  intro n
  rw [bind_eq_ok_iff]
  refine ⟨?_, ?_⟩
  · intro h
    obtain ⟨middle, hmiddle, h⟩ := h
    obtain ⟨rfl, hpart⟩ := (hfirst middle).mp hmiddle
    exact (hnext hpart n).mp h
  · intro h
    have hpart : part < sizeLimit := Nat.lt_of_le_of_lt hle h.2
    exact ⟨part, hfirst.eq_ok hpart, (hnext hpart n).mpr h⟩

/-- A total that takes in one more part is checked before it is summed further. -/
theorem Measures.add_bind {one : Except CodecError Nat} {next : Nat → Except CodecError Nat}
    {path : String} {total part whole : Nat} (hone : Measures one part)
    (hle : total + part ≤ whole)
    (hnext : total + part < sizeLimit → Measures (next (total + part)) whole) :
    Measures (one >>= fun size => checkedSize path (total + size) >>= next) whole :=
  hone.bind (by omega) fun _ => (measures_checkedSize path (total + part)).bind hle hnext

/-- A total takes in one more part exactly if the part has a size and the sum is below the limit. -/
theorem add_bind_eq_ok_iff {one : Except CodecError Nat} {next : Nat → Except CodecError Nat}
    {path : String} {total n : Nat} :
    (one >>= fun size => checkedSize path (total + size) >>= next) = .ok n ↔
      ∃ size, one = .ok size ∧ total + size < sizeLimit ∧ next (total + size) = .ok n := by
  simp only [bind_eq_ok_iff, measures_checkedSize path _ _, and_assoc, exists_eq_left]

namespace Shape

variable {s : Selections} {path : String}

/-- The widths of scalars are below the limit. -/
theorem width_lt_sizeLimit (kind : ScalarKind) : kind.width < sizeLimit := by
  cases kind <;> decide

/-- The elements of a static array are static, if there are any. -/
theorem isStatic_of_array {elem : Shape} {count : UInt64}
    (hstatic : (Shape.array elem count).isStatic = true) (hcount : count ≠ 0) :
    elem.isStatic = true := by
  simpa [isStatic, hcount] using hstatic

/-- An array that is not of no elements has a first. -/
theorem toNat_pos_of_ne_zero {count : UInt64} (hcount : count ≠ 0) : 0 < count.toNat :=
  Nat.pos_of_ne_zero fun h => hcount (UInt64.toNat_inj.mp h)

/-- All fields of a static struct are static. -/
theorem fieldsStatic_eq_true {fields : List (Named Shape)} :
    fieldsStatic fields = true ↔ ∀ field ∈ fields, field.item.isStatic = true := by
  induction fields with
  | nil => simp [fieldsStatic]
  | cons field fields ih =>
    obtain ⟨name, shape⟩ := field
    rw [fieldsStatic, Bool.and_eq_true, ih, List.forall_mem_cons]

/-- The size of what a variant may carry. -/
def sizePayload (s : Selections) (path name : String) : Option Shape → Except CodecError Nat
  | none => .ok 0
  | some shape => shape.sizeAt s (Path.child path name)

/-- The variant whose payload is sized is looked up by its name. -/
theorem sizeVariant_eq (name : String) (variants : List (Variant Shape)) :
    sizeVariant s path name variants =
      ((Shape.enum variants).variantNamed? name).elim (.error ⟨path, .unknownVariant (.name name)⟩)
        fun variant => sizePayload s path variant.name variant.payload := by
  refine search_eq_find? (sizeVariant s path name) rfl (fun variant rest => ?_) variants
  obtain ⟨other, tag, declared⟩ := variant
  cases declared <;> rfl

/-- The member to size is looked up by its name. -/
theorem sizeMember_eq (name : String) (members : List (Named Shape)) :
    sizeMember s path name members =
      ((Shape.union members).memberNamed? name).elim (.error ⟨path, .unknownVariant (.name name)⟩)
        fun member => member.item.sizeAt s (Path.child path member.name) :=
  search_eq_find? (sizeMember s path name) rfl (fun ⟨_, _⟩ _ => rfl) members

/-- The size of an enum is computed from the variant that is selected for it. -/
theorem sizeAt_enum {variants : List (Variant Shape)} {variant : Variant Shape}
    (hselected : s.get? path = some variant.name)
    (hfound : (Shape.enum variants).variantNamed? variant.name = some variant) :
    (Shape.enum variants).sizeAt s path =
      sizePayload s path variant.name variant.payload >>= fun payload =>
        checkedSize path (payload + 1) := by
  have hname : s.forSize path = .ok variant.name := by rw [Selections.forSize, hselected]
  have hvariant : sizeVariant s path variant.name variants =
      sizePayload s path variant.name variant.payload := by
    rw [sizeVariant_eq, hfound, Option.elim_some]
  rw [sizeAt, hname]
  change (sizeVariant s path variant.name variants >>= fun payload =>
    checkedSize path (payload + 1)) = _
  rw [hvariant]

/-- An enum takes a byte more than the payload of the variant that is selected for it. -/
theorem measures_enum {variants : List (Variant Shape)} {variant : Variant Shape} {length : Nat}
    (hselected : s.get? path = some variant.name)
    (hfound : (Shape.enum variants).variantNamed? variant.name = some variant)
    (hpayload : Measures (sizePayload s path variant.name variant.payload) length) :
    Measures ((Shape.enum variants).sizeAt s path) (length + 1) := by
  rw [sizeAt_enum hselected hfound]
  exact hpayload.bind (Nat.le_succ length) fun _ => measures_checkedSize path (length + 1)

/-- A union has the size of the member that is selected for it. -/
theorem sizeAt_union {members : List (Named Shape)} {name : String} {shape : Shape}
    (hselected : s.get? path = some name)
    (hfound : (Shape.union members).memberNamed? name = some ⟨name, shape⟩) :
    (Shape.union members).sizeAt s path = shape.sizeAt s (Path.child path name) := by
  have hname : s.forSize path = .ok name := by rw [Selections.forSize, hselected]
  rw [sizeAt, hname]
  change sizeMember s path name members = _
  rw [sizeMember_eq, hfound, Option.elim_some]

/-- Only a selection gives a name to size by. -/
theorem forSize_eq_ok {name : String} : s.forSize path = .ok name ↔ s.get? path = some name := by
  rw [Selections.forSize]
  cases s.get? path <;> simp

/-- An enum that has a size has a declared variant selected. -/
theorem exists_variant_of_sizeAt {variants : List (Variant Shape)} {n : Nat}
    (hsize : (Shape.enum variants).sizeAt s path = .ok n) :
    ∃ variant, s.get? path = some variant.name ∧
      (Shape.enum variants).variantNamed? variant.name = some variant := by
  simp only [sizeAt, bind_eq_ok_iff, forSize_eq_ok, sizeVariant_eq] at hsize
  obtain ⟨name, hselected, payload, hpayload, _⟩ := hsize
  cases hfound : (Shape.enum variants).variantNamed? name with
  | none => rw [hfound] at hpayload; cases hpayload
  | some variant =>
    obtain rfl := name_of_variantNamed? hfound
    exact ⟨variant, hselected, hfound⟩

/-- A union that has a size has a declared member selected. -/
theorem exists_member_of_sizeAt {members : List (Named Shape)} {n : Nat}
    (hsize : (Shape.union members).sizeAt s path = .ok n) :
    ∃ member, s.get? path = some member.name ∧
      (Shape.union members).memberNamed? member.name = some member := by
  simp only [sizeAt, bind_eq_ok_iff, forSize_eq_ok, sizeMember_eq] at hsize
  obtain ⟨name, hselected, hmember⟩ := hsize
  cases hfound : (Shape.union members).memberNamed? name with
  | none => rw [hfound] at hmember; cases hmember
  | some member =>
    obtain rfl := name_of_memberNamed? hfound
    exact ⟨member, hselected, hfound⟩

end Shape

end WireParity
