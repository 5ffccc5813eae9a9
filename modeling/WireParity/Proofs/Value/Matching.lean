import WireParity.Proofs.Value.Agreement

/-!
# Values with the same scalars at the same places

`Matches` relates two values that differ at most in the order in which structs list their fields:
what stands in fields of one name matches, and every scalar is the very same, its bit pattern
included. It is finer than parity, which cannot tell the two zeros apart. Matching values agree for
the purposes of parity in both directions, and `HasLeaf` finds the same scalars in both.
-/

namespace WireParity

/-- A step from a value to a part of it. -/
inductive Step
  | item (index : Nat)
  | field (name : String)
  | payload (tag : UInt8)
deriving Repr, DecidableEq

namespace Value

/-- A scalar stands at the end of a way into the value. -/
inductive HasLeaf : Value → List Step → Scalar → Prop
  /-- A scalar is its own leaf. -/
  | scalar (x : Scalar) : HasLeaf (.scalar x) [] x
  /-- A leaf of an element is one of the array. -/
  | item {items : List Value} {index : Nat} {item : Value} {way : List Step} {x : Scalar} :
      items[index]? = some item → HasLeaf item way x →
      HasLeaf (.array items) (.item index :: way) x
  /-- A leaf of a field is one of the struct. -/
  | field {fields : List (Named Value)} {field : Named Value} {way : List Step} {x : Scalar} :
      field ∈ fields → HasLeaf field.item way x →
      HasLeaf (.struct fields) (.field field.name :: way) x
  /-- A leaf of the payload is one of the enum. -/
  | payload {tag : UInt8} {payload : Value} {way : List Step} {x : Scalar} :
      HasLeaf payload way x → HasLeaf (.enum tag (some payload)) (.payload tag :: way) x

/-- The values have the same scalars at the same places, with fields taken by name. -/
inductive Matches : Value → Value → Prop
  /-- A scalar matches itself. -/
  | scalar (x : Scalar) : Matches (.scalar x) (.scalar x)
  /-- Arrays match element by element. -/
  | array {xs ys : List Value} :
      xs.length = ys.length →
      (∀ (index : Nat) x y, xs[index]? = some x → ys[index]? = some y → Matches x y) →
      Matches (.array xs) (.array ys)
  /-- Structs match when they have the same names, and fields of one name match. -/
  | struct {xs ys : List (Named Value)} :
      (∀ name, name ∈ xs.map Named.name ↔ name ∈ ys.map Named.name) →
      (∀ x ∈ xs, ∀ y ∈ ys, x.name = y.name → Matches x.item y.item) →
      Matches (.struct xs) (.struct ys)
  /-- A tag alone matches itself. -/
  | bare (tag : UInt8) : Matches (.enum tag none) (.enum tag none)
  /-- Enums of one tag match by their payloads. -/
  | loaded (tag : UInt8) {x y : Value} :
      Matches x y → Matches (.enum tag (some x)) (.enum tag (some y))

namespace Matches

/-- A value that repeats no field name matches itself. -/
theorem refl {x : Value} (hdistinct : x.DistinctFields) : x.Matches x := by
  induction hdistinct with
  | scalar x => exact .scalar x
  | array _ ih =>
    refine .array rfl fun index x y hx hy => ?_
    rw [hx, Option.some.injEq] at hy
    exact hy ▸ ih x (List.mem_of_getElem? hx)
  | struct hnames _ ih =>
    refine .struct (fun _ => Iff.rfl) fun x hx y hy hname => ?_
    have hsame := fieldIn?_of_mem hnames hx
    rw [hname, fieldIn?_of_mem hnames hy, Option.some.injEq] at hsame
    exact hsame ▸ ih x hx
  | bare tag => exact .bare tag
  | loaded tag _ ih => exact .loaded tag ih

/-- Two values match if the first matches one that matches the second. -/
theorem trans {x y z : Value} (hxy : x.Matches y) (hyz : y.Matches z) : x.Matches z := by
  induction hxy generalizing z with
  | scalar x => exact hyz
  | @array xs ys hlength _ ih =>
    cases hyz with
    | array hlength' hyz =>
      refine .array (hlength.trans hlength') fun index x z hx hz => ?_
      have hindex : index < ys.length := hlength ▸ (List.getElem?_eq_some_iff.mp hx).1
      have hy : ys[index]? = some ys[index] := List.getElem?_eq_getElem hindex
      exact ih index x _ hx hy (hyz index _ z hy hz)
  | struct hnames _ ih =>
    cases hyz with
    | struct hnames' hyz =>
      refine .struct (fun name => (hnames name).trans (hnames' name)) fun x hx z hz hname => ?_
      obtain ⟨y, hy, hsame⟩ := List.mem_map.mp ((hnames x.name).mp (List.mem_map_of_mem hx))
      exact ih x hx y hy hsame.symm (hyz y hy z hz (hsame.trans hname))
  | bare tag => exact hyz
  | loaded tag _ ih =>
    cases hyz with
    | loaded _ hyz => exact .loaded tag (ih hyz)

/-- Matching has no direction. -/
theorem symm {x y : Value} (hmatch : x.Matches y) : y.Matches x := by
  induction hmatch with
  | scalar x => exact .scalar x
  | array hlength _ ih => exact .array hlength.symm fun index x y hx hy => ih index y x hy hx
  | struct hnames _ ih =>
    exact .struct (fun name => (hnames name).symm) fun x hx y hy hname => ih y hy x hx hname.symm
  | bare tag => exact .bare tag
  | loaded tag _ ih => exact .loaded tag ih

/-- A leaf of a value is a leaf of one that it matches, at the same place. -/
theorem hasLeaf {x y : Value} (hmatch : x.Matches y) {way : List Step} {leaf : Scalar}
    (hleaf : x.HasLeaf way leaf) : y.HasLeaf way leaf := by
  induction hmatch generalizing way with
  | scalar x => exact hleaf
  | @array xs ys hlength _ ih =>
    cases hleaf with
    | @item _ index x _ _ hx hrest =>
      have hindex : index < ys.length := hlength ▸ (List.getElem?_eq_some_iff.mp hx).1
      have hy : ys[index]? = some ys[index] := List.getElem?_eq_getElem hindex
      exact .item hy (ih index x ys[index] hx hy hrest)
  | @struct xs ys hnames _ ih =>
    cases hleaf with
    | @field _ x _ _ hx hrest =>
      obtain ⟨y, hy, hname⟩ := List.mem_map.mp ((hnames x.name).mp (List.mem_map_of_mem hx))
      rw [← hname]
      exact .field hy (ih x hx y hy hname.symm hrest)
  | bare tag => exact hleaf
  | loaded tag _ ih =>
    cases hleaf with
    | payload hrest => exact .payload (ih hrest)

/-- Matching values have the same leaves. -/
theorem hasLeaf_iff {x y : Value} (hmatch : x.Matches y) {way : List Step} {leaf : Scalar} :
    x.HasLeaf way leaf ↔ y.HasLeaf way leaf :=
  ⟨hmatch.hasLeaf, hmatch.symm.hasLeaf⟩

end Matches

/-- Matching values are equal for the purposes of parity. -/
theorem Matches.related {x y : Value} (hmatch : x.Matches y) : x.Agrees y := by
  induction hmatch with
  | scalar x => exact .scalar x.agrees_self
  | array hlength _ ih => exact .array hlength ih
  | struct hnames _ ih =>
    exact .struct hnames fun x hx y hfound => ih x hx _ (mem_of_fieldIn? hfound) rfl
  | bare tag => exact .bare tag
  | loaded tag _ ih => exact .loaded tag ih

/-- Matching values agree for the purposes of parity. -/
theorem Matches.agrees {x y : Value} (hmatch : x.Matches y) : x.agrees y = true :=
  agrees_eq_true_iff.mpr hmatch.related

end Value

end WireParity
