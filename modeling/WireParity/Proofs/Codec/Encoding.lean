import WireParity.Codec.Encode
import WireParity.Proofs.Shape.Lookup

/-!
# Completed encodings

An emission is complete when nothing stopped it. For each form of shape, an equivalence says of
which value and parts a completed encoding consists. Proofs about encoding go through them and do
not look at emissions that stop.
-/

namespace WireParity

namespace Emission

/-- Writing on is complete when both parts are. -/
theorem andThen_eq_write {first : Emission} {next : Unit → Emission} {bytes : Bytes} :
    first.andThen next = .write bytes ↔
      ∃ front back, first = .write front ∧ next () = .write back ∧ bytes = front ++ back := by
  cases first with
  | mk written stop =>
    cases stop with
    | none =>
      generalize hnext : next () = rest
      cases rest with
      | mk more stop =>
        simp only [andThen, hnext, write, Emission.mk.injEq]
        refine ⟨?_, ?_⟩
        · intro h
          obtain ⟨hbytes, hstop⟩ := h
          exact ⟨written, more, ⟨rfl, trivial⟩, ⟨rfl, hstop⟩, hbytes.symm⟩
        · intro h
          obtain ⟨front, back, ⟨hfront, _⟩, ⟨hback, hstop⟩, hbytes⟩ := h
          subst hfront hback hbytes
          exact ⟨rfl, hstop⟩
    | some error => simp [andThen, write]

/-- Nothing is written by a failure. -/
theorem fail_ne_write {path : String} {cause : Cause} {bytes : Bytes} :
    Emission.fail path cause ≠ .write bytes := by
  simp [fail, write]

/-- Two completed emissions of the same bytes are the same. -/
theorem write_eq_write {front back : Bytes} : Emission.write front = .write back ↔ front = back := by
  simp [write]

/-- The encoding is what a completed emission wrote. -/
theorem toExcept_eq_ok {e : Emission} {bytes : Bytes} : e.toExcept = .ok bytes ↔ e = .write bytes := by
  cases e with
  | mk written stop => cases stop <;> simp [toExcept, write]

end Emission

open Emission

/-- Items are written one after another. -/
theorem emitItems_cons_eq_write {emit : Value → Nat → Emission} {index : Nat} {item : Value}
    {items : List Value} {bytes : Bytes} :
    emitItems emit index (item :: items) = .write bytes ↔
      ∃ front back, emit item index = .write front ∧
        emitItems emit (index + 1) items = .write back ∧ bytes = front ++ back := by
  rw [emitItems, andThen_eq_write]

namespace Shape

variable {s : Selections} {path : String} {bytes : Bytes} {value : Value}

/-- Writes a payload where one is declared, and nothing where none is. -/
def encodePayload (s : Selections) (path name : String) : Option Shape → Option Value → Emission
  | some shape, some value => shape.encodeAt s value (Path.child path name)
  | none, none => .write []
  | some _, none => .fail path (.invalidValue (.needsPayload name))
  | none, some _ => .fail path (.invalidValue (.carriesNoPayload name))

/-- A payload is complete exactly where one is declared and present, or neither. -/
theorem encodePayload_eq_write {name : String} {declared : Option Shape} {payload : Option Value} :
    encodePayload s path name declared payload = .write bytes ↔
      (declared = none ∧ payload = none ∧ bytes = []) ∨
      ∃ shape value, declared = some shape ∧ payload = some value ∧
        shape.encodeAt s value (Path.child path name) = .write bytes := by
  cases declared with
  | none =>
    cases payload with
    | none => simp [encodePayload, write_eq_write, eq_comm]
    | some value => simp [encodePayload, fail_ne_write]
  | some shape => cases payload <;> simp [encodePayload, fail_ne_write]

/-- A variant is looked up by its tag, and written as the tag and the payload. -/
theorem encodeVariant_eq (tag : UInt8) (payload : Option Value) (variants : List (Variant Shape)) :
    encodeVariant s path tag payload variants =
      ((Shape.enum variants).variantTagged? tag).elim (.fail path (.unknownVariant (.tag tag.toNat)))
        fun variant => (Emission.write [variant.tag]).andThen fun _ =>
          encodePayload s path variant.name variant.payload payload := by
  refine search_eq_find? (encodeVariant s path tag payload) rfl (fun variant rest => ?_) variants
  obtain ⟨name, other, declared⟩ := variant
  cases declared <;> cases payload <;> rfl

/-- A member is looked up by its name. -/
theorem encodeMember_eq (name : String) (members : List (Named Shape)) :
    encodeMember s path name value members =
      ((Shape.union members).memberNamed? name).elim (.fail path (.unknownVariant (.name name)))
        fun member => member.item.encodeAt s value (Path.child path member.name) :=
  search_eq_find? (encodeMember s path name value) rfl (fun ⟨_, _⟩ _ => rfl) members

/-- A completed scalar is a scalar of the kind, by its bytes. -/
theorem encodeAt_scalar_eq_write {kind : ScalarKind} :
    (Shape.scalar kind).encodeAt s value path = .write bytes ↔
      ∃ x : Scalar, value = .scalar x ∧ x.kind = kind ∧ bytes = x.bytes := by
  cases value with
  | scalar x =>
    rw [encodeAt]
    by_cases hkind : x.kind = kind
    · rw [if_pos hkind, write_eq_write]
      refine ⟨?_, ?_⟩
      · intro h
        exact ⟨x, rfl, hkind, h.symm⟩
      · intro h
        obtain ⟨y, hy, _, rfl⟩ := h
        cases hy
        rfl
    · rw [if_neg hkind]
      refine ⟨?_, ?_⟩
      · intro h
        exact absurd h fail_ne_write
      · intro h
        obtain ⟨y, hy, hkind', _⟩ := h
        cases hy
        exact absurd hkind' hkind
  | _ => simp [encodeAt, Value.mismatch, fail_ne_write]

/-- A completed array has the counted number of elements, one after another. -/
theorem encodeAt_array_eq_write {elem : Shape} {count : UInt64} :
    (Shape.array elem count).encodeAt s value path = .write bytes ↔
      ∃ items, value = .array items ∧ items.length = count.toNat ∧
        emitItems (fun item index => elem.encodeAt s item (Path.element path index)) 0 items =
          .write bytes := by
  cases value with
  | array items =>
    rw [encodeAt]
    by_cases hlength : items.length = count.toNat
    · simp [hlength]
    · simp [hlength, fail_ne_write]
  | _ => simp [encodeAt, Value.mismatch, fail_ne_write]

/-- A completed struct has no undeclared fields, and all declared ones. -/
theorem encodeAt_struct_eq_write {fields : List (Named Shape)} :
    (Shape.struct fields).encodeAt s value path = .write bytes ↔
      ∃ values, value = .struct values ∧ Value.undeclaredField? fields values = none ∧
        encodeFields s path values fields = .write bytes := by
  cases value with
  | struct values =>
    rw [encodeAt]
    cases hextra : Value.undeclaredField? fields values with
    | none => simp [hextra]
    | some extra => simp [hextra, fail_ne_write]
  | _ => simp [encodeAt, Value.mismatch, fail_ne_write]

/-- Completed fields: the first has a value, and the others follow it. -/
theorem encodeFields_cons_eq_write {values : List (Named Value)} {name : String} {shape : Shape}
    {fields : List (Named Shape)} :
    encodeFields s path values (⟨name, shape⟩ :: fields) = .write bytes ↔
      ∃ value front back, Value.fieldIn? name values = some value ∧
        shape.encodeAt s value (Path.child path name) = .write front ∧
        encodeFields s path values fields = .write back ∧ bytes = front ++ back := by
  rw [encodeFields]
  cases hvalue : Value.fieldIn? name values with
  | none => simp [fail_ne_write]
  | some value => simp [andThen_eq_write]

/-- A completed enum is a declared tag, and a payload exactly where one is declared. -/
theorem encodeAt_enum_eq_write {variants : List (Variant Shape)} :
    (Shape.enum variants).encodeAt s value path = .write bytes ↔
      (∃ tag name, value = .enum tag none ∧
        (Shape.enum variants).variantTagged? tag = some ⟨name, tag, none⟩ ∧ bytes = [tag]) ∨
      ∃ tag name shape payload back, value = .enum tag (some payload) ∧
        (Shape.enum variants).variantTagged? tag = some ⟨name, tag, some shape⟩ ∧
        shape.encodeAt s payload (Path.child path name) = .write back ∧ bytes = tag :: back := by
  refine ⟨?_, ?_⟩
  · intro hwritten
    cases value with
    | enum tag payload =>
      rw [encodeAt, encodeVariant_eq] at hwritten
      cases hvariant : (Shape.enum variants).variantTagged? tag with
      | none =>
        rw [hvariant, Option.elim_none] at hwritten
        exact absurd hwritten fail_ne_write
      | some variant =>
        rw [hvariant, Option.elim_some] at hwritten
        obtain ⟨front, back, hfront, hback, rfl⟩ := andThen_eq_write.mp hwritten
        cases write_eq_write.mp hfront
        have htag := tag_of_variantTagged? hvariant
        obtain ⟨name, other, declared⟩ := variant
        cases htag
        rcases encodePayload_eq_write.mp hback with ⟨rfl, rfl, rfl⟩ | ⟨shape, value, rfl, rfl, hvalue⟩
        · exact Or.inl ⟨other, name, rfl, hvariant, rfl⟩
        · exact Or.inr ⟨other, name, shape, value, back, rfl, hvariant, hvalue, rfl⟩
    | _ => exact absurd hwritten (by simp [encodeAt, Value.mismatch, fail_ne_write])
  · intro h
    rcases h with ⟨tag, name, rfl, hvariant, rfl⟩ |
      ⟨tag, name, shape, payload, back, rfl, hvariant, hback, rfl⟩
    · rw [encodeAt, encodeVariant_eq, hvariant]
      rfl
    · rw [encodeAt, encodeVariant_eq, hvariant, Option.elim_some]
      exact andThen_eq_write.mpr ⟨[tag], back, rfl, hback, rfl⟩

/-- A completed union is its selected member. -/
theorem encodeAt_union_eq_write {members : List (Named Shape)} :
    (Shape.union members).encodeAt s value path = .write bytes ↔
      ∃ name shape, s.get? path = some name ∧
        (Shape.union members).memberNamed? name = some ⟨name, shape⟩ ∧
        shape.encodeAt s value (Path.child path name) = .write bytes := by
  rw [encodeAt]
  cases hselected : s.get? path with
  | none => simp [fail_ne_write]
  | some name =>
    simp only [encodeMember_eq, Option.some.injEq]
    cases hmember : (Shape.union members).memberNamed? name with
    | none => simp [fail_ne_write, hmember]
    | some member =>
      cases member with
      | mk other shape =>
        have hother : other = name := name_of_memberNamed? hmember
        subst hother
        simp [hmember]

end Shape

end WireParity
