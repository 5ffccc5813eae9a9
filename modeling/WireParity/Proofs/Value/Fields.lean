import WireParity.Codec.Encode
import WireParity.Value.Difference
import Mathlib.Data.List.Nodup

/-!
# Looking up fields of values

A struct value is a list of named fields in any order. A lookup answers with the first field of a
name; it is the only one in values that repeat no name, and `DistinctFields` says that of a value
and of everything inside it.
-/

namespace WireParity.Value

/-- No struct in the value repeats the name of a field. -/
inductive DistinctFields : Value → Prop
  /-- A scalar has no fields. -/
  | scalar (x : Scalar) : DistinctFields (.scalar x)
  /-- The elements of an array have distinct fields each. -/
  | array {items : List Value} :
      (∀ item ∈ items, DistinctFields item) → DistinctFields (.array items)
  /-- The names in a struct are distinct, and so are those inside its fields. -/
  | struct {fields : List (Named Value)} :
      (fields.map Named.name).Nodup → (∀ field ∈ fields, DistinctFields field.item) →
      DistinctFields (.struct fields)
  /-- A tag alone has no fields. -/
  | bare (tag : UInt8) : DistinctFields (.enum tag none)
  /-- The payload of an enum has distinct fields. -/
  | loaded (tag : UInt8) {payload : Value} :
      DistinctFields payload → DistinctFields (.enum tag (some payload))

/-- An array is as distinct as its elements are. -/
theorem distinctFields_array {items : List Value} :
    (Value.array items).DistinctFields ↔ ∀ item ∈ items, item.DistinctFields :=
  ⟨fun | .array hitems => hitems, .array⟩

/-- A struct adds its own names to what its fields repeat. -/
theorem distinctFields_struct {fields : List (Named Value)} :
    (Value.struct fields).DistinctFields ↔
      (fields.map Named.name).Nodup ∧ ∀ field ∈ fields, field.item.DistinctFields :=
  ⟨fun | .struct hnames hfields => ⟨hnames, hfields⟩, fun h => .struct h.1 h.2⟩

/-- An enum is as distinct as its payload is. -/
theorem distinctFields_loaded {tag : UInt8} {payload : Value} :
    (Value.enum tag (some payload)).DistinctFields ↔ payload.DistinctFields :=
  ⟨fun | .loaded _ hpayload => hpayload, .loaded tag⟩

mutual

/-- Decides whether a value repeats no name. -/
def decideDistinct : (value : Value) → Decidable value.DistinctFields
  | .scalar x => isTrue (.scalar x)
  | .array items =>
    have := decideItemsDistinct items
    decidable_of_iff _ distinctFields_array.symm
  | .struct fields =>
    have := decideFieldsDistinct fields
    decidable_of_iff _ distinctFields_struct.symm
  | .enum tag none => isTrue (.bare tag)
  | .enum _ (some payload) =>
    have := decideDistinct payload
    decidable_of_iff _ distinctFields_loaded.symm

/-- Decides whether no element repeats a name. -/
def decideItemsDistinct : (items : List Value) → Decidable (∀ item ∈ items, item.DistinctFields)
  | [] => isTrue fun _ hitem => by cases hitem
  | item :: rest =>
    have := decideDistinct item
    have := decideItemsDistinct rest
    decidable_of_iff _ List.forall_mem_cons.symm

/-- Decides whether nothing in the fields repeats a name. -/
def decideFieldsDistinct :
    (fields : List (Named Value)) → Decidable (∀ field ∈ fields, field.item.DistinctFields)
  | [] => isTrue fun _ hfield => by cases hfield
  | ⟨_, value⟩ :: rest =>
    have := decideDistinct value
    have := decideFieldsDistinct rest
    decidable_of_iff (value.DistinctFields ∧ ∀ field ∈ rest, field.item.DistinctFields)
      (by rw [List.forall_mem_cons])

end

instance (value : Value) : Decidable value.DistinctFields := value.decideDistinct

variable {fields : List (Named Value)}

/-- A field that is found is there, under its name. -/
theorem mem_of_fieldIn? {name : String} {value : Value}
    (hfound : fieldIn? name fields = some value) : ⟨name, value⟩ ∈ fields := by
  induction fields with
  | nil => cases hfound
  | cons field fields ih =>
    obtain ⟨other, item⟩ := field
    rw [fieldIn?] at hfound
    by_cases hname : other = name
    · rw [if_pos hname, Option.some.injEq] at hfound
      subst hname hfound
      exact List.mem_cons_self
    · rw [if_neg hname] at hfound
      exact List.mem_cons_of_mem _ (ih hfound)

/-- Some field is found under every name that occurs. -/
theorem exists_fieldIn? {name : String} (hname : name ∈ fields.map Named.name) :
    ∃ value, fieldIn? name fields = some value := by
  induction fields with
  | nil => cases hname
  | cons field fields ih =>
    obtain ⟨other, item⟩ := field
    rw [fieldIn?]
    by_cases hsame : other = name
    · exact ⟨item, if_pos hsame⟩
    · rw [if_neg hsame]
      rcases List.mem_cons.mp hname with hfirst | hrest
      · exact absurd hfirst.symm hsame
      · exact ih hrest

/-- With distinct names, every field is the one found under its name. -/
theorem fieldIn?_of_mem (hdistinct : (fields.map Named.name).Nodup) {field : Named Value}
    (hfield : field ∈ fields) : fieldIn? field.name fields = some field.item := by
  induction fields with
  | nil => cases hfield
  | cons first fields ih =>
    rw [List.map_cons, List.nodup_cons] at hdistinct
    rw [fieldIn?.eq_def]
    rcases List.mem_cons.mp hfield with rfl | hrest
    · exact if_pos rfl
    · have hne : first.name ≠ field.name := by
        intro hsame
        exact hdistinct.1 (hsame ▸ List.mem_map_of_mem hrest)
      exact (if_neg hne).trans (ih hdistinct.2 hrest)

/-- No field is undeclared exactly if every name is declared. -/
theorem undeclaredField?_eq_none {declared : List (Named Shape)} :
    undeclaredField? declared fields = none ↔
      ∀ field ∈ fields, field.name ∈ declared.map Named.name := by
  simp [undeclaredField?]

/-- No field is surplus exactly if every name is expected. -/
theorem surplusField?_eq_none {expected : List (Named Value)} :
    surplusField? expected fields = none ↔
      ∀ field ∈ fields, field.name ∈ expected.map Named.name := by
  simp [surplusField?]

end WireParity.Value
