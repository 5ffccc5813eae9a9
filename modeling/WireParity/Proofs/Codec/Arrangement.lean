import WireParity.Proofs.Codec.Denotation
import WireParity.Proofs.Value.Fields

/-!
# Values in the order of their shape

A value may list the fields of a struct in any order, and encoding accepts every one.
`Arranges` singles out the values that a shape would list itself: each struct, however deep, has
exactly the declared fields in the order of declaration. Every denoted value is of this kind.
-/

namespace WireParity.Shape

/-- Every struct in a value has exactly the fields that the shape declares there, in order. -/
inductive Arranges (s : Selections) : Shape → String → Value → Prop
  /-- A scalar has no fields. -/
  | scalar (kind : ScalarKind) (path : String) (x : Scalar) :
      Arranges s (.scalar kind) path (.scalar x)
  /-- The elements of an array are arranged, each at its own path. -/
  | array {elem : Shape} {count : UInt64} {path : String} {items : List Value} :
      (∀ (index : Nat) item, items[index]? = some item →
        Arranges s elem (Path.element path index) item) →
      Arranges s (.array elem count) path (.array items)
  /-- A struct has the declared names in order, and its fields are arranged. -/
  | struct {fields : List (Named Shape)} {path : String} {values : List (Named Value)} :
      values.map Named.name = fields.map Named.name →
      (∀ (index : Nat) field value, fields[index]? = some field → values[index]? = some value →
        Arranges s field.item (Path.child path field.name) value.item) →
      Arranges s (.struct fields) path (.struct values)
  /-- A tag alone has no fields. -/
  | bare (variants : List (Variant Shape)) (path : String) (tag : UInt8) :
      Arranges s (.enum variants) path (.enum tag none)
  /-- A payload is arranged by what its variant declares. -/
  | loaded {variants : List (Variant Shape)} {path name : String} {tag : UInt8} {shape : Shape}
      {payload : Value} :
      (Shape.enum variants).variantTagged? tag = some ⟨name, tag, some shape⟩ →
      Arranges s shape (Path.child path name) payload →
      Arranges s (.enum variants) path (.enum tag (some payload))
  /-- The value of a union is arranged by the selected member. -/
  | union {members : List (Named Shape)} {path name : String} {shape : Shape} {value : Value} :
      s.get? path = some name → (Shape.union members).memberNamed? name = some ⟨name, shape⟩ →
      Arranges s shape (Path.child path name) value → Arranges s (.union members) path value

variable {s : Selections} {path : String} {bytes : Bytes}

/-- Each denoted element has bytes of its own. -/
theorem DenotesItems.getElem? {elem : Shape} {start index : Nat} {items : List Value} {item : Value}
    (hitems : DenotesItems s elem path start bytes items) (hitem : items[index]? = some item) :
    ∃ part, elem.Denotes s (Path.element path (start + index)) part item := by
  induction items generalizing start index bytes with
  | nil => cases hitem
  | cons first rest ih =>
    cases hitems with
    | @cons _ _ _ front back _ _ hfirst hrest =>
      cases index with
      | zero =>
        cases hitem
        exact ⟨front, hfirst⟩
      | succ index =>
        obtain ⟨part, hpart⟩ := ih hrest hitem
        rw [Nat.add_right_comm] at hpart
        exact ⟨part, hpart⟩

/-- Each denoted field has bytes of its own, under its declared name. -/
theorem DenotesFields.getElem? {fields : List (Named Shape)} {values : List (Named Value)}
    {index : Nat} {field : Named Shape} {value : Named Value}
    (hvalues : DenotesFields s path fields bytes values) (hfield : fields[index]? = some field)
    (hvalue : values[index]? = some value) :
    ∃ part, field.item.Denotes s (Path.child path field.name) part value.item := by
  induction fields generalizing index bytes values with
  | nil => cases hfield
  | cons first rest ih =>
    cases hvalues with
    | @cons _ _ _ _ front back _ _ hfirst hrest =>
      cases index with
      | zero =>
        cases hfield
        cases hvalue
        exact ⟨front, hfirst⟩
      | succ index => exact ih hrest hfield hvalue

/-- A denoted value is in the order of its shape. -/
theorem Denotes.arranges {shape : Shape} {value : Value}
    (hvalue : shape.Denotes s path bytes value) : shape.Arranges s path value := by
  induction shape generalizing path bytes value with
  | scalar kind =>
    cases hvalue with
    | scalar _ x => exact .scalar x.kind path x
  | array elem count ih =>
    cases hvalue with
    | array _ hitems =>
      refine .array fun index item hitem => ?_
      obtain ⟨part, hpart⟩ := hitems.getElem? hitem
      rw [Nat.zero_add] at hpart
      exact ih hpart
  | struct fields ih =>
    cases hvalue with
    | struct hvalues =>
      refine .struct hvalues.names fun index field value hfield hvalue => ?_
      obtain ⟨part, hpart⟩ := hvalues.getElem? hfield hvalue
      exact ih field (List.mem_of_getElem? hfield) hpart
  | enum variants ih =>
    cases hvalue with
    | bare hvariant => exact .bare variants path _
    | loaded hvariant hpayload =>
      exact .loaded hvariant (ih _ (mem_of_variantTagged? hvariant) _ rfl hpayload)
  | union members ih =>
    cases hvalue with
    | union hselected hmember hvalue =>
      exact .union hselected hmember (ih _ (mem_of_memberNamed? hmember) hvalue)

/-- Where values have the names of fields, each lies at the position of a field of its name. -/
theorem exists_field_of_names {fields : List (Named Shape)} {values : List (Named Value)}
    (hnames : values.map Named.name = fields.map Named.name) {index : Nat} {value : Named Value}
    (hvalue : values[index]? = some value) :
    ∃ field, fields[index]? = some field ∧ field.name = value.name := by
  have hname : (fields[index]?).map Named.name = some value.name := by
    rw [← List.getElem?_map, ← hnames, List.getElem?_map, hvalue]
    rfl
  exact Option.map_eq_some_iff.mp hname

/-- A value in the order of a well-formed shape repeats no field name. -/
theorem Arranges.distinctFields {shape : Shape} (hwell : shape.WellFormed) {value : Value}
    (hvalue : shape.Arranges s path value) : value.DistinctFields := by
  induction hwell generalizing path value with
  | scalar kind =>
    cases hvalue with
    | scalar _ _ x => exact .scalar x
  | array count _ ih =>
    cases hvalue with
    | array hitems =>
      refine .array fun item hitem => ?_
      obtain ⟨index, hindex⟩ := List.mem_iff_getElem?.mp hitem
      exact ih (hitems index item hindex)
  | @struct fields hdistinct _ ih =>
    cases hvalue with
    | @struct _ _ values hnames hvalues =>
      refine .struct (hnames ▸ hdistinct) fun value hvalue => ?_
      -- The field of the shape at the same position declares the value.
      obtain ⟨index, hindex⟩ := List.mem_iff_getElem?.mp hvalue
      obtain ⟨field, hfield, _⟩ := exists_field_of_names hnames hindex
      exact ih field (List.mem_of_getElem? hfield) (hvalues index field value hfield hindex)
  | enum _ _ _ _ ih =>
    cases hvalue with
    | bare _ _ tag => exact .bare tag
    | loaded hvariant hpayload =>
      exact .loaded _ (ih _ (mem_of_variantTagged? hvariant) _ rfl hpayload)
  | union _ _ _ ih =>
    cases hvalue with
    | union _ hmember hvalue => exact ih _ (mem_of_memberNamed? hmember) hvalue

end WireParity.Shape
