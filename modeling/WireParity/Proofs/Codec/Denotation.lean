import WireParity.Proofs.Codec.Decoding
import WireParity.Proofs.Codec.Encoding
import WireParity.Proofs.Shape.WellFormed
import WireParity.Proofs.Value.Scalar

/-!
# What bytes denote

Encoding looks fields up by name, and decoding rebuilds them from bytes. `Denotes` stands between
the two: it relates a stretch of bytes to the value that lists every field once, in the order in
which the shape declares it. It fixes both sides of the codec: decoding succeeds exactly on bytes
that begin with a denotation, and whatever encodes, encodes to bytes that denote a value.

The relation does not ask for a well-formed shape. Where names or tags repeat, it follows the codec
and takes the first variant with a tag and the first member with a name.
-/

namespace WireParity

mutual

/-- Bytes that stand for a value of a shape at a path. -/
inductive Shape.Denotes (s : Selections) : Shape → String → Bytes → Value → Prop
  /-- A scalar is its own bytes. -/
  | scalar (path : String) (x : Scalar) : Shape.Denotes s (.scalar x.kind) path x.bytes (.scalar x)
  /-- An array is as many elements as its shape counts. -/
  | array {elem : Shape} {count : UInt64} {path : String} {bytes : Bytes} {items : List Value} :
      items.length = count.toNat → Shape.DenotesItems s elem path 0 bytes items →
      Shape.Denotes s (.array elem count) path bytes (.array items)
  /-- A struct is its declared fields. -/
  | struct {fields : List (Named Shape)} {path : String} {bytes : Bytes}
      {values : List (Named Value)} :
      Shape.DenotesFields s path fields bytes values →
      Shape.Denotes s (.struct fields) path bytes (.struct values)
  /-- A variant without a payload is its tag. -/
  | bare {variants : List (Variant Shape)} {path name : String} {tag : UInt8} :
      (Shape.enum variants).variantTagged? tag = some ⟨name, tag, none⟩ →
      Shape.Denotes s (.enum variants) path [tag] (.enum tag none)
  /-- A variant with a payload is its tag, and then the payload at the variant's path. -/
  | loaded {variants : List (Variant Shape)} {path name : String} {tag : UInt8} {shape : Shape}
      {bytes : Bytes} {value : Value} :
      (Shape.enum variants).variantTagged? tag = some ⟨name, tag, some shape⟩ →
      Shape.Denotes s shape (Path.child path name) bytes value →
      Shape.Denotes s (.enum variants) path (tag :: bytes) (.enum tag (some value))
  /-- A union is its selected member. -/
  | union {members : List (Named Shape)} {path name : String} {shape : Shape} {bytes : Bytes}
      {value : Value} :
      s.get? path = some name → (Shape.union members).memberNamed? name = some ⟨name, shape⟩ →
      Shape.Denotes s shape (Path.child path name) bytes value →
      Shape.Denotes s (.union members) path bytes value

/-- Bytes that stand for elements from an index on. -/
inductive Shape.DenotesItems (s : Selections) :
    Shape → String → Nat → Bytes → List Value → Prop
  /-- No elements take no bytes. -/
  | nil (elem : Shape) (path : String) (index : Nat) : Shape.DenotesItems s elem path index [] []
  /-- An element, then the others. -/
  | cons {elem : Shape} {path : String} {index : Nat} {front back : Bytes} {item : Value}
      {items : List Value} :
      Shape.Denotes s elem (Path.element path index) front item →
      Shape.DenotesItems s elem path (index + 1) back items →
      Shape.DenotesItems s elem path index (front ++ back) (item :: items)

/-- Bytes that stand for declared fields, each under its declared name. -/
inductive Shape.DenotesFields (s : Selections) :
    String → List (Named Shape) → Bytes → List (Named Value) → Prop
  /-- No fields take no bytes. -/
  | nil (path : String) : Shape.DenotesFields s path [] [] []
  /-- A field, then the others. -/
  | cons {path name : String} {shape : Shape} {fields : List (Named Shape)} {front back : Bytes}
      {value : Value} {values : List (Named Value)} :
      Shape.Denotes s shape (Path.child path name) front value →
      Shape.DenotesFields s path fields back values →
      Shape.DenotesFields s path (⟨name, shape⟩ :: fields) (front ++ back)
        (⟨name, value⟩ :: values)

end

namespace Shape

variable {s : Selections} {path : String}

/-- Denoted fields have the declared names, in order. -/
theorem DenotesFields.names {fields : List (Named Shape)} {bytes : Bytes}
    {values : List (Named Value)} (hvalues : DenotesFields s path fields bytes values) :
    values.map Named.name = fields.map Named.name := by
  induction fields generalizing bytes values with
  | nil =>
    cases hvalues
    rfl
  | cons field fields ih =>
    cases hvalues with
    | cons _ hrest => rw [List.map_cons, List.map_cons, ih hrest]

/-- What reading a shape at any path amounts to: bytes that denote, and the rest. -/
def ReadsDenotations (s : Selections) (shape : Shape) : Prop :=
  ∀ path bytes value rest, shape.decodeAt s path bytes = .ok (value, rest) ↔
    ∃ front, bytes = front ++ rest ∧ shape.Denotes s path front value

/-- Elements are read from bytes that denote them, if one element is. -/
theorem readItems_eq_ok_iff {elem : Shape} (helem : elem.ReadsDenotations s) {count index : Nat}
    {bytes rest : Bytes} {items : List Value} :
    readItems (fun index => elem.decodeAt s (Path.element path index)) count index bytes =
        .ok (items, rest) ↔
      ∃ front, bytes = front ++ rest ∧ items.length = count ∧
        DenotesItems s elem path index front items := by
  induction count generalizing index bytes items with
  | zero =>
    rw [readItems, Except.ok.injEq, Prod.mk.injEq]
    refine ⟨?_, ?_⟩
    · intro h
      obtain ⟨rfl, rfl⟩ := h
      exact ⟨[], rfl, rfl, .nil elem path index⟩
    · intro h
      obtain ⟨front, rfl, hlength, hitems⟩ := h
      cases hitems with
      | nil => exact ⟨rfl, rfl⟩
      | cons => cases hlength
  | succ count ih =>
    rw [readItems_succ_eq_ok]
    refine ⟨?_, ?_⟩
    · intro h
      obtain ⟨item, middle, others, hitem, hothers, rfl⟩ := h
      obtain ⟨front, rfl, hfront⟩ := (helem ..).mp hitem
      obtain ⟨back, rfl, hlength, hback⟩ := ih.mp hothers
      exact ⟨front ++ back, (List.append_assoc ..).symm, congrArg (· + 1) hlength,
        .cons hfront hback⟩
    · intro h
      obtain ⟨front, rfl, hlength, hitems⟩ := h
      cases hitems with
      | nil => cases hlength
      | cons hfront hback =>
        rename_i first others item items
        refine ⟨item, others ++ rest, items, ?_, ?_, rfl⟩
        · exact (helem ..).mpr ⟨first, List.append_assoc .., hfront⟩
        · exact ih.mpr ⟨others, rfl, Nat.succ.inj hlength, hback⟩

/-- Fields are read from bytes that denote them, if each field's shape is. -/
theorem decodeFields_eq_ok_iff {fields : List (Named Shape)}
    (hfields : ∀ field ∈ fields, field.item.ReadsDenotations s) {bytes rest : Bytes}
    {values : List (Named Value)} :
    decodeFields s path fields bytes = .ok (values, rest) ↔
      ∃ front, bytes = front ++ rest ∧ DenotesFields s path fields front values := by
  induction fields generalizing bytes values with
  | nil =>
    rw [decodeFields, Except.ok.injEq, Prod.mk.injEq]
    refine ⟨?_, ?_⟩
    · intro h
      obtain ⟨rfl, rfl⟩ := h
      exact ⟨[], rfl, .nil path⟩
    · intro h
      obtain ⟨front, rfl, hvalues⟩ := h
      cases hvalues
      exact ⟨rfl, rfl⟩
  | cons field fields ih =>
    obtain ⟨name, shape⟩ := field
    rw [List.forall_mem_cons] at hfields
    rw [decodeFields_cons_eq_ok]
    refine ⟨?_, ?_⟩
    · intro h
      obtain ⟨value, middle, others, hvalue, hothers, rfl⟩ := h
      obtain ⟨front, rfl, hfront⟩ := (hfields.1 ..).mp hvalue
      obtain ⟨back, rfl, hback⟩ := (ih hfields.2).mp hothers
      exact ⟨front ++ back, (List.append_assoc ..).symm, .cons hfront hback⟩
    · intro h
      obtain ⟨front, rfl, hvalues⟩ := h
      cases hvalues with
      | cons hfront hback =>
        rename_i first back value others
        refine ⟨value, back ++ rest, others, ?_, ?_, rfl⟩
        · exact (hfields.1 ..).mpr ⟨first, List.append_assoc .., hfront⟩
        · exact (ih hfields.2).mpr ⟨back, rfl, hback⟩

/-- Decoding succeeds exactly on bytes that begin with a denotation, and hands on the rest. -/
theorem readsDenotations (s : Selections) (shape : Shape) : shape.ReadsDenotations s := by
  induction shape with
  | scalar kind =>
    intro path bytes value rest
    rw [decodeAt_scalar_eq_ok]
    refine ⟨?_, ?_⟩
    · intro h
      obtain ⟨front, rfl, hlength, rfl⟩ := h
      have hfront : (Shape.scalar kind).Denotes s path (Scalar.ofBytes kind front).bytes _ :=
        .scalar path (Scalar.ofBytes kind front)
      rw [Scalar.bytes_ofBytes hlength] at hfront
      exact ⟨front, rfl, hfront⟩
    · intro h
      obtain ⟨front, rfl, hfront⟩ := h
      cases hfront with
      | scalar _ x => exact ⟨x.bytes, rfl, x.length_bytes, by rw [x.ofBytes_bytes]⟩
  | array elem count ih =>
    intro path bytes value rest
    rw [decodeAt_array_eq_ok]
    refine ⟨?_, ?_⟩
    · intro h
      obtain ⟨items, rfl, hread⟩ := h
      obtain ⟨front, rfl, hlength, hitems⟩ := (readItems_eq_ok_iff ih).mp hread
      exact ⟨front, rfl, .array hlength hitems⟩
    · intro h
      obtain ⟨front, rfl, hfront⟩ := h
      cases hfront with
      | array hlength hitems =>
        exact ⟨_, rfl, (readItems_eq_ok_iff ih).mpr ⟨front, rfl, hlength, hitems⟩⟩
  | struct fields ih =>
    intro path bytes value rest
    rw [decodeAt_struct_eq_ok]
    refine ⟨?_, ?_⟩
    · intro h
      obtain ⟨values, rfl, hread⟩ := h
      obtain ⟨front, rfl, hvalues⟩ := (decodeFields_eq_ok_iff ih).mp hread
      exact ⟨front, rfl, .struct hvalues⟩
    · intro h
      obtain ⟨front, rfl, hfront⟩ := h
      cases hfront with
      | struct hvalues => exact ⟨_, rfl, (decodeFields_eq_ok_iff ih).mpr ⟨front, rfl, hvalues⟩⟩
  | enum variants ih =>
    intro path bytes value rest
    rw [decodeAt_enum_eq_ok]
    refine ⟨?_, ?_⟩
    · intro h
      rcases h with ⟨tag, name, rfl, hvariant, rfl⟩ |
        ⟨tag, name, shape, payload, middle, rfl, hvariant, hpayload, rfl⟩
      · exact ⟨[tag], rfl, .bare hvariant⟩
      · obtain ⟨front, rfl, hfront⟩ :=
          (ih _ (mem_of_variantTagged? hvariant) shape rfl ..).mp hpayload
        exact ⟨tag :: front, rfl, .loaded hvariant hfront⟩
    · intro h
      obtain ⟨front, rfl, hfront⟩ := h
      cases hfront with
      | bare hvariant => exact Or.inl ⟨_, _, rfl, hvariant, rfl⟩
      | loaded hvariant hpayload =>
        refine Or.inr ⟨_, _, _, _, _, rfl, hvariant, ?_, rfl⟩
        exact (ih _ (mem_of_variantTagged? hvariant) _ rfl ..).mpr ⟨_, rfl, hpayload⟩
  | union members ih =>
    intro path bytes value rest
    rw [decodeAt_union_eq_ok]
    refine ⟨?_, ?_⟩
    · intro h
      obtain ⟨name, shape, hselected, hmember, hread⟩ := h
      obtain ⟨front, rfl, hfront⟩ := (ih _ (mem_of_memberNamed? hmember) ..).mp hread
      exact ⟨front, rfl, .union hselected hmember hfront⟩
    · intro h
      obtain ⟨front, rfl, hfront⟩ := h
      cases hfront with
      | union hselected hmember hvalue =>
        refine ⟨_, _, hselected, hmember, ?_⟩
        exact (ih _ (mem_of_memberNamed? hmember) ..).mpr ⟨front, rfl, hvalue⟩

/-- Bytes denote at most one value of a shape. -/
theorem Denotes.unique {shape : Shape} {bytes : Bytes} {value other : Value}
    (hvalue : shape.Denotes s path bytes value) (hother : shape.Denotes s path bytes other) :
    value = other := by
  have hreads := readsDenotations s shape path (bytes ++ [])
  have hleft := (hreads value []).mpr ⟨bytes, rfl, hvalue⟩
  have hright := (hreads other []).mpr ⟨bytes, rfl, hother⟩
  rw [hleft] at hright
  cases hright
  rfl

end Shape

end WireParity
