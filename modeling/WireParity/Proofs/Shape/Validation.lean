import WireParity.Proofs.Shape.WellFormed
import WireParity.Samples

/-!
# Where validation finds fault

Every rule for shapes is about one shape and the names and tags that it gives itself; `Orderly` puts
the rules together, and `HasFault` says which of them is broken. `Contains` reaches the shapes that
lie inside another, each at the path at which validation looks at it. Validation accepts a shape
exactly if all that lie inside it are orderly. When it refuses, the error has the path of one of
them and a fault of that one, so no error of another kind comes out of it.
-/

namespace WireParity

namespace Shape

/-- What lies inside a shape at a path, and at which path: the shape itself, and what lies inside its
parts. The element of an array counts also where there are no elements. -/
inductive Contains : Shape → String → Shape → String → Prop
  /-- A shape lies inside itself. -/
  | self (shape : Shape) (path : String) : Contains shape path shape path
  /-- What lies inside the element. -/
  | element {elem part : Shape} {path node : String} (count : UInt64) :
      Contains elem (path ++ "[]") part node → Contains (.array elem count) path part node
  /-- What lies inside a field. -/
  | field {fields : List (Named Shape)} {field : Named Shape} {part : Shape} {path node : String} :
      field ∈ fields → Contains field.item (Path.child path field.name) part node →
      Contains (.struct fields) path part node
  /-- What lies inside the payload of a variant. -/
  | payload {variants : List (Variant Shape)} {variant : Variant Shape} {shape part : Shape}
      {path node : String} :
      variant ∈ variants → variant.payload = some shape →
      Contains shape (Path.child path variant.name) part node →
      Contains (.enum variants) path part node
  /-- What lies inside a member. -/
  | member {members : List (Named Shape)} {member : Named Shape} {part : Shape}
      {path node : String} :
      member ∈ members → Contains member.item (Path.child path member.name) part node →
      Contains (.union members) path part node

/-- The rules that a shape itself has to keep, whatever lies inside its parts. -/
def Orderly : Shape → Prop
  | scalar _ => True
  | array _ _ => True
  | struct fields => (fields.map Named.name).Nodup
  | enum variants =>
    variants ≠ [] ∧ (variants.map Variant.name).Nodup ∧ (variants.map Variant.tag).Nodup
  | union members => members ≠ [] ∧ (members.map Named.name).Nodup

/-- The rule that a shape itself breaks: it gives a name or tag more than once, or there is nothing
to choose from. -/
inductive HasFault : Shape → ShapeFault → Prop
  /-- A name is that of two fields. -/
  | duplicateField {fields : List (Named Shape)} {name : String} :
      2 ≤ (fields.map Named.name).count name → HasFault (.struct fields) (.duplicateField name)
  /-- There is no variant. -/
  | enumWithoutVariants : HasFault (.enum []) .enumWithoutVariants
  /-- A name is that of two variants. -/
  | duplicateVariant {variants : List (Variant Shape)} {name : String} :
      2 ≤ (variants.map Variant.name).count name →
      HasFault (.enum variants) (.duplicateVariant name)
  /-- A tag is that of two variants. -/
  | duplicateTag {variants : List (Variant Shape)} {tag : UInt8} :
      2 ≤ (variants.map Variant.tag).count tag → HasFault (.enum variants) (.duplicateTag tag)
  /-- There is no member. -/
  | unionWithoutVariants : HasFault (.union []) .unionWithoutVariants
  /-- A name is that of two members. -/
  | duplicateMember {members : List (Named Shape)} {name : String} :
      2 ≤ (members.map Named.name).count name → HasFault (.union members) (.duplicateVariant name)

/-- A well-formed shape keeps the rules itself. -/
theorem WellFormed.orderly {shape : Shape} (hwell : shape.WellFormed) : shape.Orderly := by
  cases hwell with
  | scalar kind => trivial
  | array count _ => trivial
  | struct hnames _ => exact hnames
  | enum hsome hnames htags _ => exact ⟨hsome, hnames, htags⟩
  | union hsome hnames _ => exact ⟨hsome, hnames⟩

/-- What lies inside a well-formed shape is well formed. -/
theorem Contains.wellFormed {shape part : Shape} {path node : String}
    (hpart : shape.Contains path part node) (hwell : shape.WellFormed) : part.WellFormed := by
  induction hpart with
  | self shape path => exact hwell
  | element count _ ih =>
    cases hwell with
    | array _ helem => exact ih helem
  | field hfield _ ih =>
    cases hwell with
    | struct _ hfields => exact ih (hfields _ hfield)
  | payload hvariant hpayload _ ih =>
    cases hwell with
    | enum _ _ _ hvariants => exact ih (hvariants _ hvariant _ hpayload)
  | member hmember _ ih =>
    cases hwell with
    | union _ _ hmembers => exact ih (hmembers _ hmember)

/-- A shape is well formed if all that lie inside it keep the rules. -/
theorem wellFormed_of_forall_orderly (shape : Shape) (path : String)
    (horderly : ∀ part node, shape.Contains path part node → part.Orderly) :
    shape.WellFormed := by
  induction shape generalizing path with
  | scalar kind => exact .scalar kind
  | array elem count ih =>
    exact .array count (ih _ fun part node hpart => horderly part node (.element count hpart))
  | struct fields ih =>
    have hnames : (Shape.struct fields).Orderly := horderly _ _ (.self _ _)
    refine .struct hnames fun field hfield => ?_
    exact ih field hfield (Path.child path field.name) fun part node hpart =>
      horderly part node (.field hfield hpart)
  | enum variants ih =>
    have hself : (Shape.enum variants).Orderly := horderly _ _ (.self _ _)
    obtain ⟨hsome, hnames, htags⟩ := hself
    refine .enum hsome hnames htags fun variant hvariant shape hpayload => ?_
    exact ih variant hvariant shape hpayload (Path.child path variant.name) fun part node hpart =>
      horderly part node (.payload hvariant hpayload hpart)
  | union members ih =>
    have hself : (Shape.union members).Orderly := horderly _ _ (.self _ _)
    obtain ⟨hsome, hnames⟩ := hself
    refine .union hsome hnames fun member hmember => ?_
    exact ih member hmember (Path.child path member.name) fun part node hpart =>
      horderly part node (.member hmember hpart)

end Shape

/-- An error tells of a fault of something that lies inside a shape at a path, and where that is. -/
def CodecError.TracesTo (e : CodecError) (shape : Shape) (path : String) : Prop :=
  ∃ part fault, shape.Contains path part e.path ∧ part.HasFault fault ∧
    e.cause = .invalidDescriptor fault

/-- What an error tells of lies also inside whatever the shape lies inside. -/
theorem CodecError.TracesTo.lift {e : CodecError} {inner shape : Shape} {next path : String}
    (h : e.TracesTo inner next)
    (hinside : ∀ part node, inner.Contains next part node → shape.Contains path part node) :
    e.TracesTo shape path := by
  obtain ⟨part, fault, hpart, hfault, hcause⟩ := h
  exact ⟨part, fault, hinside part e.path hpart, hfault, hcause⟩

namespace Shape

/-- Refusing a shape for a fault of its own is an error that tells of it. -/
theorem HasFault.tracesTo {shape : Shape} {fault : ShapeFault} (h : shape.HasFault fault)
    (path : String) : CodecError.TracesTo ⟨path, .invalidDescriptor fault⟩ shape path :=
  ⟨shape, fault, .self shape path, h, rfl⟩

/-- A key counts the same whether it has been seen or is still to come. -/
theorem count_seen {κ : Type} [BEq κ] (k key : κ) (seen keys : List κ) :
    (key :: seen ++ keys).count k = (seen ++ key :: keys).count k :=
  List.perm_middle.symm.count_eq k

/-- A key that was seen and comes again is there twice. -/
theorem two_le_count_of_seen {κ : Type} [BEq κ] [LawfulBEq κ] {key : κ} {seen keys : List κ}
    (hseen : key ∈ seen) : 2 ≤ (seen ++ key :: keys).count key := by
  have hbefore := List.count_pos_iff.mpr hseen
  rw [List.count_append, List.count_cons_self]
  omega

variable {path : String} {e : CodecError}

/-- A check that refuses repeated names and looks at each part fails either with a repeated name or
as one of the parts does. -/
theorem error_of_checkNamed (check : List String → List (Named Shape) → Except CodecError Unit)
    {fault : String → ShapeFault} (hnil : ∀ seen, check seen [] = .ok ())
    (hcons : ∀ seen name shape rest, check seen (⟨name, shape⟩ :: rest) =
      if name ∈ seen then refuse path (fault name)
      else shape.validateAt (Path.child path name) >>= fun _ => check (name :: seen) rest)
    {parts : List (Named Shape)} {seen : List String} (herror : check seen parts = .error e) :
    (∃ name, 2 ≤ (seen ++ parts.map Named.name).count name ∧
      e = ⟨path, .invalidDescriptor (fault name)⟩) ∨
    ∃ part ∈ parts, part.item.validateAt (Path.child path part.name) = .error e := by
  induction parts generalizing seen with
  | nil =>
    rw [hnil] at herror
    cases herror
  | cons part parts ih =>
    obtain ⟨name, shape⟩ := part
    rw [hcons] at herror
    by_cases hseen : name ∈ seen
    · rw [if_pos hseen] at herror
      cases herror
      exact Or.inl ⟨name, two_le_count_of_seen hseen, rfl⟩
    · rw [if_neg hseen, bind_eq_error_iff] at herror
      rcases herror with hpart | ⟨_, _, hrest⟩
      · exact Or.inr ⟨_, List.mem_cons_self, hpart⟩
      · rcases ih hrest with ⟨other, hcount, he⟩ | ⟨other, hother, he⟩
        · exact Or.inl ⟨other, count_seen other name seen _ ▸ hcount, he⟩
        · exact Or.inr ⟨other, List.mem_cons_of_mem _ hother, he⟩

/-- The check of variants fails with a repeated name, with a repeated tag, or as one of the payloads
does. -/
theorem error_of_validateVariants {variants : List (Variant Shape)} {seen : List String}
    {tags : List UInt8} (herror : validateVariants path seen tags variants = .error e) :
    (∃ name, 2 ≤ (seen ++ variants.map Variant.name).count name ∧
      e = ⟨path, .invalidDescriptor (.duplicateVariant name)⟩) ∨
    (∃ tag, 2 ≤ (tags ++ variants.map Variant.tag).count tag ∧
      e = ⟨path, .invalidDescriptor (.duplicateTag tag)⟩) ∨
    ∃ variant ∈ variants, ∃ shape, variant.payload = some shape ∧
      shape.validateAt (Path.child path variant.name) = .error e := by
  induction variants generalizing seen tags with
  | nil => cases herror
  | cons variant variants ih =>
    obtain ⟨name, tag, payload⟩ := variant
    rw [validateVariants.eq_def] at herror
    by_cases hseen : name ∈ seen
    · simp only [if_pos hseen] at herror
      cases herror
      exact Or.inl ⟨name, two_le_count_of_seen hseen, rfl⟩
    by_cases htag : tag ∈ tags
    · simp only [if_neg hseen, if_pos htag] at herror
      cases herror
      exact Or.inr (Or.inl ⟨tag, two_le_count_of_seen htag, rfl⟩)
    simp only [if_neg hseen, if_neg htag] at herror
    have hrest : validateVariants path (name :: seen) (tag :: tags) variants = .error e ∨
        ∃ shape, payload = some shape ∧ shape.validateAt (Path.child path name) = .error e := by
      cases payload with
      | none => exact Or.inl herror
      | some shape =>
        rcases bind_eq_error_iff.mp herror with hpart | ⟨_, _, hrest⟩
        · exact Or.inr ⟨shape, rfl, hpart⟩
        · exact Or.inl hrest
    rcases hrest with hrest | ⟨shape, rfl, hpart⟩
    · rcases ih hrest with ⟨other, hcount, he⟩ | ⟨other, hcount, he⟩ | ⟨other, hother, he⟩
      · exact Or.inl ⟨other, count_seen other name seen _ ▸ hcount, he⟩
      · exact Or.inr (Or.inl ⟨other, count_seen other tag tags _ ▸ hcount, he⟩)
      · exact Or.inr (Or.inr ⟨other, List.mem_cons_of_mem _ hother, he⟩)
    · exact Or.inr (Or.inr ⟨_, List.mem_cons_self, shape, rfl, hpart⟩)

/-- An error of validation tells of a fault inside the shape. -/
theorem tracesTo_of_validateAt (shape : Shape) (path : String)
    (herror : shape.validateAt path = .error e) : e.TracesTo shape path := by
  induction shape generalizing path with
  | scalar kind => cases herror
  | array elem count ih =>
    rw [validateAt] at herror
    exact (ih _ herror).lift fun _ _ hpart => .element count hpart
  | struct fields ih =>
    rw [validateAt] at herror
    have hfails := error_of_checkNamed (validateFields path) (fun _ => rfl)
      (fun _ _ _ _ => rfl) herror
    rcases hfails with ⟨name, hcount, rfl⟩ | ⟨field, hfield, hpart⟩
    · exact (HasFault.duplicateField hcount).tracesTo path
    · exact (ih field hfield _ hpart).lift fun _ _ hpart => .field hfield hpart
  | enum variants ih =>
    rw [validateAt] at herror
    cases variants with
    | nil =>
      cases herror
      exact HasFault.enumWithoutVariants.tracesTo path
    | cons first rest =>
      rw [List.isEmpty_cons, if_neg Bool.false_ne_true] at herror
      rcases error_of_validateVariants herror with ⟨name, hcount, rfl⟩ | ⟨tag, hcount, rfl⟩ |
        ⟨variant, hvariant, payload, hpayload, hpart⟩
      · exact (HasFault.duplicateVariant hcount).tracesTo path
      · exact (HasFault.duplicateTag hcount).tracesTo path
      · exact (ih variant hvariant payload hpayload _ hpart).lift fun _ _ hpart =>
          .payload hvariant hpayload hpart
  | union members ih =>
    rw [validateAt] at herror
    cases members with
    | nil =>
      cases herror
      exact HasFault.unionWithoutVariants.tracesTo path
    | cons first rest =>
      rw [List.isEmpty_cons, if_neg Bool.false_ne_true] at herror
      have hfails := error_of_checkNamed (validateMembers path) (fun _ => rfl)
        (fun _ _ _ _ => rfl) herror
      rcases hfails with ⟨name, hcount, rfl⟩ | ⟨member, hmember, hpart⟩
      · exact (HasFault.duplicateMember hcount).tracesTo path
      · exact (ih member hmember _ hpart).lift fun _ _ hpart => .member hmember hpart

/-- Validation accepts a shape exactly if everything inside it has distinct names, distinct tags and
something to choose from, the elements of arrays that have none, payloads and members included. What
it refuses a shape for is the fault of something inside it, at whose path the error is; an error of
another kind never comes of it. -/
theorem validate_decides (shape : Shape) :
    (shape.validate = .ok () ↔
      ∀ part node, shape.Contains Path.root part node → part.Orderly) ∧
    ∀ e, shape.validate = .error e →
      e.kind = .invalidDescriptor ∧
        ∃ part fault, shape.Contains Path.root part e.path ∧ part.HasFault fault ∧
          e.cause = .invalidDescriptor fault := by
  refine ⟨⟨fun hvalid part node hpart => ?_, fun horderly => ?_⟩, fun e herror => ?_⟩
  · exact (hpart.wellFormed (wellFormed_of_validate hvalid)).orderly
  · exact (validateAt_eq_ok_iff shape Path.root).mpr
      (wellFormed_of_forall_orderly shape Path.root horderly)
  · obtain ⟨part, fault, hpart, hfault, hcause⟩ := tracesTo_of_validateAt shape Path.root herror
    exact ⟨by rw [CodecError.kind, hcause, Cause.kind], part, fault, hpart, hfault, hcause⟩

end Shape

namespace Samples

/-- An array without elements, of structs with an enum inside whose variants share a tag. -/
def unreached : Shape :=
  .array (.struct [field "level" .u8,
    ⟨"mode", .enum [⟨"Off", 1, none⟩, ⟨"On", 1, some (.scalar .u8)⟩]⟩]) 0

end Samples

namespace Shape

/-- The fault of the enum is found although the array has no elements, at the path where it is. A
packet of samples is accepted, so all that lies inside it is orderly. -/
theorem validate_decides_unreached :
    Samples.unreached.validate = .error ⟨"[].mode", .invalidDescriptor (.duplicateTag 1)⟩ ∧
    (∃ part fault, Samples.unreached.Contains Path.root part "[].mode" ∧ part.HasFault fault ∧
      Cause.invalidDescriptor (.duplicateTag 1) = .invalidDescriptor fault) ∧
    Samples.choice.validate = .ok () ∧
    ∀ part node, Samples.choice.Contains Path.root part node → part.Orderly := by
  have hrefused : Samples.unreached.validate =
      .error ⟨"[].mode", .invalidDescriptor (.duplicateTag 1)⟩ := by decide
  have haccepted : Samples.choice.validate = .ok () := by decide
  exact ⟨hrefused, ((validate_decides Samples.unreached).2 _ hrefused).2, haccepted,
    (validate_decides Samples.choice).1.mp haccepted⟩

end Shape

end WireParity
