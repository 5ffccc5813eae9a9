import WireParity.Proofs.Codec.Tokens
import WireParity.Proofs.Value.Visibility

/-!
# Values of one shape and their differences

A shape says of what kind a scalar is at every place of its values. Fields may stand in any order and
still have that kind, so two values of one shape never have floats of two widths at one place, and that
is the only difference that cannot be seen.
-/

namespace WireParity

namespace Value

variable {way : List Step} {x : Scalar}

/-- A leaf of an array is one of an element. -/
theorem hasLeaf_array {items : List Value} (h : (array items).HasLeaf way x) :
    ∃ (index : Nat) (item : Value) (rest : List Step), way = .item index :: rest ∧
      items[index]? = some item ∧ item.HasLeaf rest x := by
  cases h with
  | item hitem hrest => exact ⟨_, _, _, rfl, hitem, hrest⟩

/-- A leaf of a struct is one of a field. -/
theorem hasLeaf_struct {fields : List (Named Value)} (h : (struct fields).HasLeaf way x) :
    ∃ field ∈ fields, ∃ rest, way = .field field.name :: rest ∧ field.item.HasLeaf rest x := by
  cases h with
  | field hfield hrest => exact ⟨_, hfield, _, rfl, hrest⟩

end Value

namespace Shape

variable {s : Selections} {path : String} {bytes : Bytes}

/-- What a scalar shape denotes is of its kind. -/
theorem Denotes.scalar_kind {kind : ScalarKind} {value : Value}
    (hvalue : (Shape.scalar kind).Denotes s path bytes value) {way : List Step} {a : Scalar}
    (hleaf : value.HasLeaf way a) : a.kind = kind := by
  cases hvalue with
  | scalar _ x =>
    cases hleaf with
    | scalar => rfl

/-- In values of one well-formed shape, what stands at the end of one way is of one kind. -/
theorem Denotes.kind_eq {shape : Shape} (hwell : shape.WellFormed) {x y : Value} {other : Bytes}
    (hx : shape.Denotes s path bytes x) (hy : shape.Denotes s path other y) {way : List Step}
    {a b : Scalar} (ha : x.HasLeaf way a) (hb : y.HasLeaf way b) : a.kind = b.kind := by
  induction hwell generalizing path bytes other x y way with
  | scalar kind => exact (hx.scalar_kind ha).trans (hy.scalar_kind hb).symm
  | array count _ ih =>
    cases hx with
    | array _ hxs =>
      cases hy with
      | array _ hys =>
        obtain ⟨index, x, rest, rfl, hx, ha⟩ := Value.hasLeaf_array ha
        obtain ⟨_, y, _, hway, hy, hb⟩ := Value.hasLeaf_array hb
        cases hway
        obtain ⟨_, hx⟩ := hxs.getElem? hx
        obtain ⟨_, hy⟩ := hys.getElem? hy
        exact ih hx hy ha hb
  | @struct fields hdistinct _ ih =>
    cases hx with
    | struct hxs =>
      cases hy with
      | struct hys =>
        obtain ⟨x, hx, rest, rfl, hxleaf⟩ := Value.hasLeaf_struct ha
        obtain ⟨y, hy, _, hway, hyleaf⟩ := Value.hasLeaf_struct hb
        rw [List.cons.injEq, Step.field.injEq] at hway
        obtain ⟨hname, rfl⟩ := hway
        obtain ⟨i, hi⟩ := List.mem_iff_getElem?.mp hx
        obtain ⟨j, hj⟩ := List.mem_iff_getElem?.mp hy
        obtain ⟨field, hfield, hxname⟩ := exists_field_of_names hxs.names hi
        obtain ⟨other, hother, hyname⟩ := exists_field_of_names hys.names hj
        -- Both stand where the shape declares the one field of their name.
        obtain rfl : field = other := List.inj_on_of_nodup_map hdistinct
          (List.mem_of_getElem? hfield) (List.mem_of_getElem? hother)
          (hxname.trans (hname.trans hyname.symm))
        obtain ⟨_, hxpart⟩ := hxs.getElem? hfield hi
        obtain ⟨_, hypart⟩ := hys.getElem? hother hj
        exact ih field (List.mem_of_getElem? hfield) hxpart hypart hxleaf hyleaf
  | enum _ _ _ _ ih =>
    cases hx with
    | bare _ => cases ha
    | loaded hvariant hx =>
      cases ha with
      | payload ha =>
        cases hb with
        | payload hb =>
          cases hy with
          | loaded hvariant' hy =>
            rw [hvariant] at hvariant'
            cases hvariant'
            exact ih _ (mem_of_variantTagged? hvariant) _ rfl hx hy ha hb
  | union _ _ _ ih =>
    cases hx with
    | union hselected hmember hx =>
      cases hy with
      | union hselected' hmember' hy =>
        rw [hselected] at hselected'
        cases hselected'
        rw [hmember] at hmember'
        cases hmember'
        exact ih _ (mem_of_memberNamed? hmember) hx hy ha hb

end Shape

/-- Between values of one shape that repeat no field name, every difference can be seen. -/
theorem Value.expected_ne_actual_of_encode {shape : Shape} {s : Selections} {x y : Value}
    {bytes other : Bytes} {d : Difference} (hvalid : shape.validate = .ok ())
    (hx : x.DistinctFields) (hy : y.DistinctFields) (hxbytes : shape.encode x s = .ok bytes)
    (hybytes : shape.encode y s = .ok other) (h : x.difference? y = some d) :
    d.expected ≠ d.actual := by
  intro halike
  obtain ⟨way, a, b, hconfuses, -⟩ := exists_confuses_of_differenceAt x y Path.root h halike
  obtain ⟨front, hfront, hxfront⟩ := (Shape.encode_eq_ok_iff_denotes hx).mp hxbytes
  obtain ⟨back, hback, hyback⟩ := (Shape.encode_eq_ok_iff_denotes hy).mp hybytes
  have hkind := hfront.kind_eq (Shape.wellFormed_of_validate hvalid) hback
    (hxfront.hasLeaf hconfuses.expected) (hyback.hasLeaf hconfuses.actual)
  rcases hconfuses.kinds with ⟨ha, hb⟩ | ⟨ha, hb⟩ <;> rw [ha, hb] at hkind <;> cases hkind

end WireParity
