import WireParity.Shape.WellFormed
import WireParity.Proofs.Outcome
import WireParity.Proofs.Shape.Induction
import Mathlib.Data.List.Nodup

/-!
# What validation accepts

`WellFormed` states the rules for shapes without an order of checking: within one parent, names are
distinct, tags are distinct, and there is something to choose from. `validateAt_eq_ok_iff` says that
the checker accepts exactly these shapes, at any path.
-/

namespace WireParity.Shape

/-- A shape that the codec can be driven by, throughout. -/
inductive WellFormed : Shape → Prop
  /-- Scalars have no parts. -/
  | scalar (kind : ScalarKind) : WellFormed (.scalar kind)
  /-- The element of an array counts also where there are no elements. -/
  | array {elem : Shape} (count : UInt64) : WellFormed elem → WellFormed (.array elem count)
  /-- The fields of a struct have distinct names. -/
  | struct {fields : List (Named Shape)} :
      (fields.map Named.name).Nodup → (∀ field ∈ fields, WellFormed field.item) →
      WellFormed (.struct fields)
  /-- The variants of an enum have distinct names and distinct tags, and there is one. -/
  | enum {variants : List (Variant Shape)} :
      variants ≠ [] → (variants.map Variant.name).Nodup → (variants.map Variant.tag).Nodup →
      (∀ variant ∈ variants, ∀ shape, variant.payload = some shape → WellFormed shape) →
      WellFormed (.enum variants)
  /-- The members of a union have distinct names, and there is one. -/
  | union {members : List (Named Shape)} :
      members ≠ [] → (members.map Named.name).Nodup →
      (∀ member ∈ members, WellFormed member.item) → WellFormed (.union members)

/-- Refusing is not accepting. -/
theorem refuse_ne_ok {path : String} {fault : ShapeFault} {done : Unit} :
    refuse path fault ≠ .ok done := by
  intro h
  cases h

/-- The names after those already seen are new and distinct. -/
def Fresh {α : Type} (seen keys : List α) : Prop := keys.Nodup ∧ ∀ key ∈ keys, key ∉ seen

/-- Keys are fresh if the first is, and the others are once it is seen. -/
theorem fresh_cons {α : Type} {seen keys : List α} {key : α} :
    Fresh seen (key :: keys) ↔ key ∉ seen ∧ Fresh (key :: seen) keys := by
  refine ⟨?_, ?_⟩
  · intro h
    obtain ⟨hdistinct, hnew⟩ := h
    rw [List.nodup_cons] at hdistinct
    refine ⟨hnew key List.mem_cons_self, hdistinct.2, fun other hother hseen => ?_⟩
    rcases List.mem_cons.mp hseen with rfl | hseen
    · exact hdistinct.1 hother
    · exact hnew other (List.mem_cons_of_mem key hother) hseen
  · intro h
    obtain ⟨hkey, hdistinct, hnew⟩ := h
    refine ⟨List.nodup_cons.mpr ⟨fun hother => ?_, hdistinct⟩, fun other hother hseen => ?_⟩
    · exact hnew key hother List.mem_cons_self
    · rcases List.mem_cons.mp hother with rfl | hother
      · exact hkey hseen
      · exact hnew other hother (List.mem_cons_of_mem key hseen)

/-- Without any seen before, fresh keys are distinct keys. -/
theorem fresh_nil {α : Type} {keys : List α} : Fresh [] keys ↔ keys.Nodup := by
  simp [Fresh]

section Parts

variable (valid : Shape → Prop) (path : String)

/-- Fields are accepted when their names are fresh and each is accepted at its path. -/
theorem validateFields_eq_ok_iff {fields : List (Named Shape)} (seen : List String)
    (hparts : ∀ field ∈ fields, ∀ path, field.item.validateAt path = .ok () ↔ valid field.item) :
    validateFields path seen fields = .ok () ↔
      Fresh seen (fields.map Named.name) ∧ ∀ field ∈ fields, valid field.item := by
  induction fields generalizing seen with
  | nil => simp [validateFields, Fresh]
  | cons field fields ih =>
    obtain ⟨name, shape⟩ := field
    rw [List.forall_mem_cons] at hparts
    rw [validateFields, List.map_cons, fresh_cons, List.forall_mem_cons]
    by_cases hseen : name ∈ seen
    · simp [hseen, refuse_ne_ok]
    · rw [if_neg hseen, bind_eq_ok_iff]
      simp only [exists_const, hparts.1, ih (name :: seen) hparts.2]
      tauto

/-- Members are accepted exactly when they are as fields; only the fault is worded differently. -/
theorem validateMembers_eq_ok_iff {members : List (Named Shape)} (seen : List String) :
    validateMembers path seen members = .ok () ↔ validateFields path seen members = .ok () := by
  induction members generalizing seen with
  | nil => rfl
  | cons member members ih =>
    obtain ⟨name, shape⟩ := member
    rw [validateMembers, validateFields]
    by_cases hseen : name ∈ seen
    · simp [hseen, refuse_ne_ok]
    · rw [if_neg hseen, if_neg hseen, bind_eq_ok_iff, bind_eq_ok_iff]
      simp only [ih]

/-- Variants are accepted when their names and tags are fresh and each payload is accepted. -/
theorem validateVariants_eq_ok_iff {variants : List (Variant Shape)} (seen : List String)
    (tags : List UInt8)
    (hparts : ∀ variant ∈ variants, ∀ shape, variant.payload = some shape →
      ∀ path, shape.validateAt path = .ok () ↔ valid shape) :
    validateVariants path seen tags variants = .ok () ↔
      Fresh seen (variants.map Variant.name) ∧ Fresh tags (variants.map Variant.tag) ∧
        ∀ variant ∈ variants, ∀ shape, variant.payload = some shape → valid shape := by
  induction variants generalizing seen tags with
  | nil => simp [validateVariants, Fresh]
  | cons variant variants ih =>
    obtain ⟨name, tag, payload⟩ := variant
    rw [List.forall_mem_cons] at hparts
    rw [validateVariants.eq_def, List.map_cons, List.map_cons, fresh_cons, fresh_cons,
      List.forall_mem_cons]
    by_cases hseen : name ∈ seen
    · simp [hseen, refuse_ne_ok]
    · by_cases htags : tag ∈ tags
      · simp [hseen, htags, refuse_ne_ok]
      · have hrest := ih (name :: seen) (tag :: tags) hparts.2
        simp only [if_neg hseen, if_neg htags]
        cases payload with
        | none =>
          simp only [hrest, reduceCtorEq, false_implies, implies_true, true_and]
          tauto
        | some shape =>
          simp only [bind_eq_ok_iff, exists_const, hparts.1 shape rfl, hrest, Option.some.injEq,
            forall_eq']
          tauto

end Parts

/-- Validation accepts exactly the well-formed shapes, whatever path it reports faults at. -/
theorem validateAt_eq_ok_iff (shape : Shape) (path : String) :
    shape.validateAt path = .ok () ↔ shape.WellFormed := by
  induction shape generalizing path with
  | scalar kind =>
    rw [validateAt]
    exact ⟨fun _ => .scalar kind, fun _ => rfl⟩
  | array elem count ih =>
    rw [validateAt, ih]
    refine ⟨?_, ?_⟩
    · exact .array count
    · intro h
      cases h with
      | array _ helem => exact helem
  | struct fields ih =>
    rw [validateAt, validateFields_eq_ok_iff WellFormed path [] ih, fresh_nil]
    refine ⟨?_, ?_⟩
    · intro h
      obtain ⟨hdistinct, hparts⟩ := h
      exact .struct hdistinct hparts
    · intro h
      cases h with
      | struct hdistinct hparts => exact ⟨hdistinct, hparts⟩
  | enum variants ih =>
    rw [validateAt]
    cases variants with
    | nil =>
      refine ⟨?_, ?_⟩
      · intro h
        exact absurd h refuse_ne_ok
      · intro h
        cases h with
        | enum hnonempty => exact absurd rfl hnonempty
    | cons first rest =>
      rw [List.isEmpty_cons, if_neg Bool.false_ne_true,
        validateVariants_eq_ok_iff WellFormed path [] [] ih, fresh_nil, fresh_nil]
      refine ⟨?_, ?_⟩
      · intro h
        obtain ⟨hnames, htags, hparts⟩ := h
        exact .enum (List.cons_ne_nil first rest) hnames htags hparts
      · intro h
        cases h with
        | enum _ hnames htags hparts => exact ⟨hnames, htags, hparts⟩
  | union members ih =>
    rw [validateAt]
    cases members with
    | nil =>
      refine ⟨?_, ?_⟩
      · intro h
        exact absurd h refuse_ne_ok
      · intro h
        cases h with
        | union hnonempty => exact absurd rfl hnonempty
    | cons first rest =>
      rw [List.isEmpty_cons, if_neg Bool.false_ne_true,
        validateMembers_eq_ok_iff, validateFields_eq_ok_iff WellFormed path [] ih, fresh_nil]
      refine ⟨?_, ?_⟩
      · intro h
        obtain ⟨hnames, hparts⟩ := h
        exact .union (List.cons_ne_nil first rest) hnames hparts
      · intro h
        cases h with
        | union _ hnames hparts => exact ⟨hnames, hparts⟩

/-- A validated shape is well formed. -/
theorem wellFormed_of_validate {shape : Shape} (hvalid : shape.validate = .ok ()) :
    shape.WellFormed :=
  (validateAt_eq_ok_iff shape Path.root).mp hvalid

end WireParity.Shape
