import WireParity.Codec.Decode
import WireParity.Proofs.Outcome
import WireParity.Proofs.Shape.Lookup

/-!
# Successful decodings

For each form of shape, an equivalence says from which bytes and parts a successful decoding comes.
The rest of the bytes is handed on untouched, so every part is read where the one before it ends.
-/

namespace WireParity

/-- The front that is split off has the asked number of bytes, and nothing is lost. -/
theorem splitFront?_eq_some {count : Nat} {bytes front rest : Bytes} :
    splitFront? count bytes = some (front, rest) ↔ bytes = front ++ rest ∧ front.length = count := by
  induction count generalizing bytes front with
  | zero =>
    rw [splitFront?, Option.some.injEq, Prod.mk.injEq, List.length_eq_zero_iff]
    refine ⟨?_, ?_⟩
    · intro h
      obtain ⟨rfl, rfl⟩ := h
      exact ⟨rfl, rfl⟩
    · intro h
      obtain ⟨rfl, rfl⟩ := h
      exact ⟨rfl, rfl⟩
  | succ count ih =>
    cases bytes with
    | nil =>
      rw [splitFront?]
      refine ⟨?_, ?_⟩
      · intro h
        cases h
      · intro h
        obtain ⟨hempty, hlength⟩ := h
        rw [(List.append_eq_nil_iff.mp hempty.symm).1] at hlength
        cases hlength
    | cons b bytes =>
      rw [splitFront?, Option.map_eq_some_iff]
      refine ⟨?_, ?_⟩
      · intro h
        obtain ⟨⟨others, back⟩, hsplit, hparts⟩ := h
        cases hparts
        obtain ⟨rfl, rfl⟩ := ih.mp hsplit
        exact ⟨rfl, rfl⟩
      · intro h
        obtain ⟨hbytes, hlength⟩ := h
        cases front with
        | nil => cases hlength
        | cons c others =>
          rw [List.cons_append, List.cons.injEq] at hbytes
          obtain ⟨rfl, hbytes⟩ := hbytes
          exact ⟨(others, rest), ih.mpr ⟨hbytes, Nat.succ.inj hlength⟩, rfl⟩

/-- What is taken from the front has the asked number of bytes. -/
theorem takeFront_eq_ok {path : String} {count : Nat} {bytes front rest : Bytes} :
    takeFront path count bytes = .ok (front, rest) ↔ bytes = front ++ rest ∧ front.length = count := by
  rw [takeFront, ← splitFront?_eq_some]
  cases splitFront? count bytes with
  | none => simp
  | some parts => simp

/-- Nothing is split off exactly where there are too few bytes. -/
theorem splitFront?_eq_none {count : Nat} {bytes : Bytes} :
    splitFront? count bytes = none ↔ bytes.length < count := by
  induction count generalizing bytes with
  | zero => simp [splitFront?]
  | succ count ih =>
    cases bytes with
    | nil => simp [splitFront?]
    | cons b bytes => rw [splitFront?, Option.map_eq_none_iff, ih, List.length_cons, Nat.succ_lt_succ_iff]

/-- Where too few bytes are left, it is said how many are needed and how many there are. -/
theorem takeFront_eq_error {path : String} {count : Nat} {bytes : Bytes} {error : CodecError} :
    takeFront path count bytes = .error error ↔
      bytes.length < count ∧ error = ⟨path, .truncatedInput count bytes.length⟩ := by
  rw [takeFront, ← splitFront?_eq_none]
  cases splitFront? count bytes with
  | none => simp [eq_comm]
  | some parts => simp

/-- Items are read one after another. -/
theorem readItems_succ_eq_ok {read : Nat → Bytes → Except CodecError (Value × Bytes)}
    {count index : Nat} {bytes rest : Bytes} {items : List Value} :
    readItems read (count + 1) index bytes = .ok (items, rest) ↔
      ∃ item middle others, read index bytes = .ok (item, middle) ∧
        readItems read count (index + 1) middle = .ok (others, rest) ∧ items = item :: others := by
  rw [readItems, bind_eq_ok_iff]
  refine ⟨?_, ?_⟩
  · intro h
    obtain ⟨⟨item, middle⟩, hitem, hothers⟩ := h
    obtain ⟨⟨others, back⟩, hothers, hresult⟩ := bind_eq_ok_iff.mp hothers
    cases hresult
    exact ⟨item, middle, others, hitem, hothers, rfl⟩
  · intro h
    obtain ⟨item, middle, others, hitem, hothers, rfl⟩ := h
    exact ⟨(item, middle), hitem, bind_eq_ok_iff.mpr ⟨(others, rest), hothers, rfl⟩⟩

namespace Shape

variable {s : Selections} {path : String} {bytes rest : Bytes} {value : Value}

/-- Reads a payload where one is declared. -/
def decodePayload (s : Selections) (path name : String) (tag : UInt8) (bytes : Bytes) :
    Option Shape → Except CodecError (Value × Bytes)
  | none => .ok (.enum tag none, bytes)
  | some shape => do
    let (payload, rest) ← shape.decodeAt s (Path.child path name) bytes
    return (.enum tag (some payload), rest)

/-- The variant of a payload is looked up by the tag. -/
theorem decodeVariant_eq (tag : UInt8) (variants : List (Variant Shape)) :
    decodeVariant s path tag bytes variants =
      ((Shape.enum variants).variantTagged? tag).elim (.error ⟨path, .unknownVariant (.tag tag.toNat)⟩)
        fun variant => decodePayload s path variant.name tag bytes variant.payload := by
  refine search_eq_find? (decodeVariant s path tag bytes) rfl (fun variant rest => ?_) variants
  obtain ⟨name, other, declared⟩ := variant
  cases declared <;> rfl

/-- The member to read is looked up by its name. -/
theorem decodeMember_eq (name : String) (members : List (Named Shape)) :
    decodeMember s path name bytes members =
      ((Shape.union members).memberNamed? name).elim (.error ⟨path, .unknownVariant (.name name)⟩)
        fun member => member.item.decodeAt s (Path.child path member.name) bytes :=
  search_eq_find? (decodeMember s path name bytes) rfl (fun ⟨_, _⟩ _ => rfl) members

/-- A scalar is read from as many bytes as its kind is wide. -/
theorem decodeAt_scalar_eq_ok {kind : ScalarKind} :
    (Shape.scalar kind).decodeAt s path bytes = .ok (value, rest) ↔
      ∃ front, bytes = front ++ rest ∧ front.length = kind.width ∧
        value = .scalar (Scalar.ofBytes kind front) := by
  rw [decodeAt, bind_eq_ok_iff]
  refine ⟨?_, ?_⟩
  · intro h
    obtain ⟨⟨front, back⟩, htake, hresult⟩ := h
    cases hresult
    obtain ⟨hbytes, hlength⟩ := takeFront_eq_ok.mp htake
    exact ⟨front, hbytes, hlength, rfl⟩
  · intro h
    obtain ⟨front, hbytes, hlength, rfl⟩ := h
    exact ⟨(front, rest), takeFront_eq_ok.mpr ⟨hbytes, hlength⟩, rfl⟩

/-- A scalar is refused only for want of bytes. -/
theorem decodeAt_scalar_eq_error {kind : ScalarKind} {error : CodecError} :
    (Shape.scalar kind).decodeAt s path bytes = .error error ↔
      bytes.length < kind.width ∧ error = ⟨path, .truncatedInput kind.width bytes.length⟩ := by
  rw [decodeAt, bind_eq_error_iff, takeFront_eq_error, or_iff_left]
  intro h
  obtain ⟨parts, _, hresult⟩ := h
  cases hresult

/-- An array is read element by element. -/
theorem decodeAt_array_eq_ok {elem : Shape} {count : UInt64} :
    (Shape.array elem count).decodeAt s path bytes = .ok (value, rest) ↔
      ∃ items, value = .array items ∧
        readItems (fun index => elem.decodeAt s (Path.element path index)) count.toNat 0 bytes =
          .ok (items, rest) := by
  rw [decodeAt, bind_eq_ok_iff]
  refine ⟨?_, ?_⟩
  · intro h
    obtain ⟨⟨items, back⟩, hread, hresult⟩ := h
    cases hresult
    exact ⟨items, rfl, hread⟩
  · intro h
    obtain ⟨items, rfl, hread⟩ := h
    exact ⟨(items, rest), hread, rfl⟩

/-- A struct is read field by field. -/
theorem decodeAt_struct_eq_ok {fields : List (Named Shape)} :
    (Shape.struct fields).decodeAt s path bytes = .ok (value, rest) ↔
      ∃ values, value = .struct values ∧
        decodeFields s path fields bytes = .ok (values, rest) := by
  rw [decodeAt, bind_eq_ok_iff]
  refine ⟨?_, ?_⟩
  · intro h
    obtain ⟨⟨values, back⟩, hread, hresult⟩ := h
    cases hresult
    exact ⟨values, rfl, hread⟩
  · intro h
    obtain ⟨values, rfl, hread⟩ := h
    exact ⟨(values, rest), hread, rfl⟩

/-- Fields are read one after another, each under its declared name. -/
theorem decodeFields_cons_eq_ok {name : String} {shape : Shape} {fields : List (Named Shape)}
    {values : List (Named Value)} :
    decodeFields s path (⟨name, shape⟩ :: fields) bytes = .ok (values, rest) ↔
      ∃ value middle others, shape.decodeAt s (Path.child path name) bytes = .ok (value, middle) ∧
        decodeFields s path fields middle = .ok (others, rest) ∧
        values = ⟨name, value⟩ :: others := by
  rw [decodeFields, bind_eq_ok_iff]
  refine ⟨?_, ?_⟩
  · intro h
    obtain ⟨⟨value, middle⟩, hvalue, hothers⟩ := h
    obtain ⟨⟨others, back⟩, hothers, hresult⟩ := bind_eq_ok_iff.mp hothers
    cases hresult
    exact ⟨value, middle, others, hvalue, hothers, rfl⟩
  · intro h
    obtain ⟨value, middle, others, hvalue, hothers, rfl⟩ := h
    exact ⟨(value, middle), hvalue, bind_eq_ok_iff.mpr ⟨(others, rest), hothers, rfl⟩⟩

/-- Fields are refused for the first that is. -/
theorem decodeFields_cons_eq_error {name : String} {shape : Shape} {fields : List (Named Shape)}
    {error : CodecError} :
    decodeFields s path (⟨name, shape⟩ :: fields) bytes = .error error ↔
      shape.decodeAt s (Path.child path name) bytes = .error error ∨
      ∃ value middle, shape.decodeAt s (Path.child path name) bytes = .ok (value, middle) ∧
        decodeFields s path fields middle = .error error := by
  rw [decodeFields, bind_eq_error_iff]
  refine or_congr Iff.rfl ⟨?_, ?_⟩
  · intro h
    obtain ⟨⟨value, middle⟩, hvalue, hothers⟩ := h
    rcases bind_eq_error_iff.mp hothers with hothers | ⟨others, _, hresult⟩
    · exact ⟨value, middle, hvalue, hothers⟩
    · cases hresult
  · intro h
    obtain ⟨value, middle, hvalue, hothers⟩ := h
    exact ⟨(value, middle), hvalue, bind_eq_error_iff.mpr (.inl hothers)⟩

/-- An enum is read from a declared tag, and a payload is read exactly where one is declared. -/
theorem decodeAt_enum_eq_ok {variants : List (Variant Shape)} :
    (Shape.enum variants).decodeAt s path bytes = .ok (value, rest) ↔
      (∃ tag name, bytes = tag :: rest ∧
        (Shape.enum variants).variantTagged? tag = some ⟨name, tag, none⟩ ∧
        value = .enum tag none) ∨
      ∃ tag name shape payload middle, bytes = tag :: middle ∧
        (Shape.enum variants).variantTagged? tag = some ⟨name, tag, some shape⟩ ∧
        shape.decodeAt s (Path.child path name) middle = .ok (payload, rest) ∧
        value = .enum tag (some payload) := by
  refine ⟨?_, ?_⟩
  · intro hread
    cases bytes with
    | nil => cases hread
    | cons tag middle =>
      rw [decodeAt, decodeVariant_eq] at hread
      cases hvariant : (Shape.enum variants).variantTagged? tag with
      | none =>
        rw [hvariant] at hread
        cases hread
      | some variant =>
        rw [hvariant, Option.elim_some] at hread
        have htag := tag_of_variantTagged? hvariant
        obtain ⟨name, other, declared⟩ := variant
        cases htag
        cases declared with
        | none =>
          cases hread
          exact Or.inl ⟨other, name, rfl, hvariant, rfl⟩
        | some shape =>
          obtain ⟨⟨payload, back⟩, hpayload, hresult⟩ := bind_eq_ok_iff.mp hread
          cases hresult
          exact Or.inr ⟨other, name, shape, payload, middle, rfl, hvariant, hpayload, rfl⟩
  · intro h
    rcases h with ⟨tag, name, rfl, hvariant, rfl⟩ |
      ⟨tag, name, shape, payload, middle, rfl, hvariant, hpayload, rfl⟩
    · rw [decodeAt, decodeVariant_eq, hvariant]
      rfl
    · rw [decodeAt, decodeVariant_eq, hvariant]
      exact bind_eq_ok_iff.mpr ⟨(payload, rest), hpayload, rfl⟩

/-- A union is read as its selected member. -/
theorem decodeAt_union_eq_ok {members : List (Named Shape)} :
    (Shape.union members).decodeAt s path bytes = .ok (value, rest) ↔
      ∃ name shape, s.get? path = some name ∧
        (Shape.union members).memberNamed? name = some ⟨name, shape⟩ ∧
        shape.decodeAt s (Path.child path name) bytes = .ok (value, rest) := by
  rw [decodeAt]
  cases hselected : s.get? path with
  | none => simp
  | some name =>
    simp only [decodeMember_eq, Option.some.injEq]
    cases hmember : (Shape.union members).memberNamed? name with
    | none => simp [hmember]
    | some member =>
      obtain ⟨other, shape⟩ := member
      have hother : other = name := name_of_memberNamed? hmember
      subst hother
      simp [hmember]

end Shape

end WireParity
