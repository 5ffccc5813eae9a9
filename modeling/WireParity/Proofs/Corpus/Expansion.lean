import WireParity.Corpus.Resolver
import WireParity.Proofs.Shape.WellFormed
import WireParity.Proofs.Table
import Mathlib.Logic.Relation
import Mathlib.Data.Finset.Card
import Mathlib.Data.Finset.Filter

/-!
# What a schema stands for

A reference stands for the whole of what its name is declared as, and so on inside that. `Expands`
says which shape is left when every reference is replaced, without any order of work, memory or
bound. It is a function where it is defined, but it is not defined everywhere: a derivation is
finite, so no name that is referred to may lead back to itself, and each has to be declared or to be
that of a scalar kind. `exists_expands` says that nothing else is in the way. There are only so many
declared names, so a way along references that never comes back has to end.
-/

namespace WireParity

/-- Two lists go together item by item: corresponding items have one key and are related. -/
structure Aligned {α β κ : Type} (key : α → κ) (key' : β → κ) (related : α → β → Prop)
    (xs : List α) (ys : List β) : Prop where
  keys : ys.map key' = xs.map key
  pairs : ∀ pair ∈ xs.zip ys, related pair.1 pair.2

namespace Aligned

variable {α β κ : Type} {key : α → κ} {key' : β → κ} {related : α → β → Prop}
  {x : α} {y : β} {xs : List α} {ys zs : List β}

/-- Nothing goes together with nothing. -/
theorem nil : Aligned key key' related [] [] := by
  refine ⟨rfl, ?_⟩
  intro pair hpair
  cases hpair

/-- Lists go together if their first items do and the others do. -/
theorem cons (hkey : key' y = key x) (hfirst : related x y)
    (hrest : Aligned key key' related xs ys) : Aligned key key' related (x :: xs) (y :: ys) := by
  refine ⟨?_, ?_⟩
  · rw [List.map_cons, List.map_cons, hkey, hrest.keys]
  · rw [List.zip_cons_cons]
    exact List.forall_mem_cons.mpr ⟨hfirst, hrest.pairs⟩

/-- Every item of the first list has one of the second, under the same key. -/
theorem exists_of_mem (hkeys : ys.map key' = xs.map key) (hx : x ∈ xs) :
    ∃ y, (x, y) ∈ xs.zip ys ∧ key' y = key x := by
  induction xs generalizing ys with
  | nil => cases hx
  | cons first xs ih =>
    obtain ⟨y, ys, rfl, hfirst, hrest⟩ := List.map_eq_cons_iff.mp hkeys
    rw [List.zip_cons_cons]
    rcases List.mem_cons.mp hx with rfl | hx
    · exact ⟨y, List.mem_cons_self, hfirst⟩
    · obtain ⟨y', hpair, hkey⟩ := ih hrest hx
      exact ⟨y', List.mem_cons_of_mem _ hpair, hkey⟩

/-- Where each item has a partner, the list has one. -/
theorem exists_aligned (hpartner : ∀ x ∈ xs, ∃ y, key' y = key x ∧ related x y) :
    ∃ ys, Aligned key key' related xs ys := by
  induction xs with
  | nil => exact ⟨[], nil⟩
  | cons x xs ih =>
    rw [List.forall_mem_cons] at hpartner
    obtain ⟨y, hkey, hfirst⟩ := hpartner.1
    obtain ⟨ys, hrest⟩ := ih hpartner.2
    exact ⟨y :: ys, hrest.cons hkey hfirst⟩

/-- Where each item has at most one partner, the list has at most one. -/
theorem unique {related' : α → β → Prop} (hys : Aligned key key' related xs ys)
    (hzs : Aligned key key' related' xs zs)
    (hsame : ∀ x y z, related x y → related' x z → key' y = key x → key' z = key x → y = z) :
    ys = zs := by
  induction xs generalizing ys zs with
  | nil =>
    rw [List.map_eq_nil_iff.mp hys.keys, List.map_eq_nil_iff.mp hzs.keys]
  | cons x xs ih =>
    obtain ⟨y, ys, rfl, hy, hys'⟩ := List.map_eq_cons_iff.mp hys.keys
    obtain ⟨z, zs, rfl, hz, hzs'⟩ := List.map_eq_cons_iff.mp hzs.keys
    have hyx := hys.pairs
    have hzx := hzs.pairs
    rw [List.zip_cons_cons, List.forall_mem_cons] at hyx hzx
    rw [hsame x y z hyx.1 hzx.1 hy hz, ih ⟨hys', hyx.2⟩ ⟨hzs', hzx.2⟩]

end Aligned

namespace Schema

private theorem sizeOf_part_lt {parts : List (Named Schema)} {part : Named Schema}
    (hpart : part ∈ parts) : sizeOf part.item < 1 + sizeOf parts := by
  have hsize := List.sizeOf_lt_of_mem hpart
  cases part with
  | mk name item =>
    rw [Named.mk.sizeOf_spec] at hsize
    change sizeOf item < _
    omega

private theorem sizeOf_variant_lt {variants : List (Variant Schema)} {variant : Variant Schema}
    {schema : Schema} (hvariant : variant ∈ variants) (hpayload : variant.payload = some schema) :
    sizeOf schema < 1 + sizeOf variants := by
  have hsize := List.sizeOf_lt_of_mem hvariant
  cases variant with
  | mk name tag payload =>
    subst hpayload
    rw [Variant.mk.sizeOf_spec, Option.some.sizeOf_spec] at hsize
    omega

/-- A property of schemas holds throughout if composites inherit it from their parts. It is the
principle that `induction` uses for schemas. -/
@[elab_as_elim, induction_eliminator]
theorem byParts {motive : Schema → Prop}
    (ref : ∀ name, motive (.ref name))
    (scalar : ∀ kind, motive (.scalar kind))
    (array : ∀ elem count, motive elem → motive (.array elem count))
    (struct : ∀ fields, (∀ field ∈ fields, motive field.item) → motive (.struct fields))
    (enum : ∀ variants, (∀ variant ∈ variants, ∀ schema, variant.payload = some schema →
      motive schema) → motive (.enum variants))
    (union : ∀ members, (∀ member ∈ members, motive member.item) → motive (.union members))
    (schema : Schema) : motive schema :=
  match schema with
  | .ref name => ref name
  | .scalar kind => scalar kind
  | .array elem count => array elem count (byParts ref scalar array struct enum union elem)
  | .struct fields => struct fields fun field hfield =>
      have := sizeOf_part_lt hfield
      byParts ref scalar array struct enum union field.item
  | .enum variants => enum variants fun variant hvariant schema hpayload =>
      have := sizeOf_variant_lt hvariant hpayload
      byParts ref scalar array struct enum union schema
  | .union members => union members fun member hmember =>
      have := sizeOf_part_lt hmember
      byParts ref scalar array struct enum union member.item
termination_by sizeOf schema

/-- A name occurs in a schema as a reference. -/
inductive Mentions : Schema → String → Prop
  | ref (name : String) : Mentions (.ref name) name
  | element {elem : Schema} {name : String} (count : UInt64) :
      Mentions elem name → Mentions (.array elem count) name
  | field {fields : List (Named Schema)} {field : Named Schema} {name : String} :
      field ∈ fields → Mentions field.item name → Mentions (.struct fields) name
  | payload {variants : List (Variant Schema)} {variant : Variant Schema} {schema : Schema}
      {name : String} :
      variant ∈ variants → variant.payload = some schema → Mentions schema name →
      Mentions (.enum variants) name
  | member {members : List (Named Schema)} {member : Named Schema} {name : String} :
      member ∈ members → Mentions member.item name → Mentions (.union members) name

end Schema

/-- A variant but for what its payload is. -/
def Variant.head {α : Type} (v : Variant α) : String × UInt8 × Bool :=
  (v.name, v.tag, v.payload.isSome)

namespace Schema

/-- The shape that is left of a schema when all references to a table are replaced by what they
stand for. -/
inductive Expands (table : Table Schema) : Schema → Shape → Prop
  /-- A declared name stands for what its schema does. -/
  | declared {name : String} {schema : Schema} {shape : Shape} :
      Table.find? name table = some schema → Expands table schema shape →
      Expands table (.ref name) shape
  /-- A name that is not declared may be that of a scalar kind. -/
  | kind {name : String} {kind : ScalarKind} :
      Table.find? name table = none → ScalarKind.ofName? name = some kind →
      Expands table (.ref name) (.scalar kind)
  /-- A scalar stands for itself. -/
  | scalar (kind : ScalarKind) : Expands table (.scalar kind) (.scalar kind)
  /-- An array keeps its count. -/
  | array {elem : Schema} {shape : Shape} (count : UInt64) :
      Expands table elem shape → Expands table (.array elem count) (.array shape count)
  /-- The fields of a struct keep their names and order. -/
  | struct {fields : List (Named Schema)} {parts : List (Named Shape)} :
      parts.map Named.name = fields.map Named.name →
      (∀ pair ∈ fields.zip parts, Expands table pair.1.item pair.2.item) →
      Expands table (.struct fields) (.struct parts)
  /-- The variants of an enum keep their names, tags and order, and have payloads as before. -/
  | enum {variants : List (Variant Schema)} {parts : List (Variant Shape)} :
      parts.map Variant.head = variants.map Variant.head →
      (∀ pair ∈ variants.zip parts, ∀ schema shape, pair.1.payload = some schema →
        pair.2.payload = some shape → Expands table schema shape) →
      Expands table (.enum variants) (.enum parts)
  /-- The members of a union keep their names and order. -/
  | union {members : List (Named Schema)} {parts : List (Named Shape)} :
      parts.map Named.name = members.map Named.name →
      (∀ pair ∈ members.zip parts, Expands table pair.1.item pair.2.item) →
      Expands table (.union members) (.union parts)

/-- Fields or members go together with their shapes. -/
abbrev NamedExpand (table : Table Schema) : List (Named Schema) → List (Named Shape) → Prop :=
  Aligned Named.name Named.name fun field part => Expands table field.item part.item

/-- Variants go together with theirs. -/
abbrev VariantsExpand (table : Table Schema) :
    List (Variant Schema) → List (Variant Shape) → Prop :=
  Aligned Variant.head Variant.head fun variant part => ∀ schema shape,
    variant.payload = some schema → part.payload = some shape → Expands table schema shape

variable {table : Table Schema} {schema : Schema} {shape other : Shape} {name : String}

/-- Parts under the same names are the same if each is all that its schema can stand for. -/
theorem NamedExpand.unique {fields : List (Named Schema)} {parts others : List (Named Shape)}
    (hnames : parts.map Named.name = fields.map Named.name)
    (hunique : ∀ pair ∈ fields.zip parts, ∀ {other}, Expands table pair.1.item other →
      pair.2.item = other) (hothers : NamedExpand table fields others) : parts = others := by
  have hparts : Aligned Named.name Named.name
      (fun (field : Named Schema) (part : Named Shape) =>
        ∀ {other}, Expands table field.item other → part.item = other) fields parts :=
    ⟨hnames, hunique⟩
  refine hparts.unique hothers ?_
  intro field part other hpart hother hname hname'
  obtain ⟨name, shape⟩ := part
  obtain ⟨name', shape'⟩ := other
  rw [Named.mk.injEq]
  exact ⟨hname.trans hname'.symm, hpart hother⟩

/-- Variants with the same heads are the same if each payload is all that its schema can stand
for. -/
theorem VariantsExpand.unique {variants : List (Variant Schema)}
    {parts others : List (Variant Shape)}
    (hheads : parts.map Variant.head = variants.map Variant.head)
    (hunique : ∀ pair ∈ variants.zip parts, ∀ schema shape, pair.1.payload = some schema →
      pair.2.payload = some shape → ∀ {other}, Expands table schema other → shape = other)
    (hothers : VariantsExpand table variants others) : parts = others := by
  have hparts : Aligned Variant.head Variant.head
      (fun (variant : Variant Schema) (part : Variant Shape) => ∀ schema shape,
        variant.payload = some schema → part.payload = some shape →
          ∀ {other}, Expands table schema other → shape = other) variants parts :=
    ⟨hheads, hunique⟩
  refine hparts.unique hothers ?_
  intro variant part other hpart hother hhead hhead'
  obtain ⟨name, tag, payload⟩ := variant
  obtain ⟨name', tag', payload'⟩ := part
  obtain ⟨name'', tag'', payload''⟩ := other
  simp only [Variant.head, Prod.mk.injEq] at hhead hhead'
  obtain ⟨rfl, rfl, hsome⟩ := hhead
  obtain ⟨rfl, rfl, hsome'⟩ := hhead'
  rw [Variant.mk.injEq]
  refine ⟨rfl, rfl, ?_⟩
  cases payload with
  | none =>
    rw [Option.isSome_none, Option.isSome_eq_false_iff, Option.isNone_iff_eq_none] at hsome hsome'
    rw [hsome, hsome']
  | some schema =>
    rw [Option.isSome_some, Option.isSome_iff_exists] at hsome hsome'
    obtain ⟨shape, rfl⟩ := hsome
    obtain ⟨shape', rfl⟩ := hsome'
    rw [hpart schema shape rfl rfl (hother schema shape' rfl rfl)]

/-- Where a schema's variant has a payload, so does the shape's variant that goes with it. -/
theorem exists_pair_of_payload {variants : List (Variant Schema)} {parts : List (Variant Shape)}
    {variant : Variant Schema} (hheads : parts.map Variant.head = variants.map Variant.head)
    (hvariant : variant ∈ variants) (hpayload : variant.payload = some schema) :
    ∃ part shape, (variant, part) ∈ variants.zip parts ∧ part.payload = some shape := by
  obtain ⟨part, hpair, hhead⟩ := Aligned.exists_of_mem hheads hvariant
  rw [Variant.head, Variant.head, Prod.mk.injEq, Prod.mk.injEq, hpayload] at hhead
  obtain ⟨shape, hshape⟩ := Option.isSome_iff_exists.mp hhead.2.2
  exact ⟨part, shape, hpair, hshape⟩

/-- A schema stands for at most one shape. -/
theorem Expands.unique (hshape : Expands table schema shape) (hother : Expands table schema other) :
    shape = other := by
  induction hshape generalizing other with
  | declared hfound _ ih =>
    cases hother with
    | declared hfound' hother =>
      rw [hfound, Option.some.injEq] at hfound'
      subst hfound'
      exact ih hother
    | kind hmissing _ =>
      rw [hfound] at hmissing
      cases hmissing
  | kind hmissing hkind =>
    cases hother with
    | declared hfound _ =>
      rw [hmissing] at hfound
      cases hfound
    | kind _ hkind' =>
      rw [hkind, Option.some.injEq] at hkind'
      rw [hkind']
  | scalar kind =>
    cases hother
    rfl
  | array count _ ih =>
    cases hother with
    | array _ hother => rw [ih hother]
  | struct hnames _ ih =>
    cases hother with
    | struct hnames' hothers => rw [NamedExpand.unique hnames ih ⟨hnames', hothers⟩]
  | enum hheads _ ih =>
    cases hother with
    | enum hheads' hothers => rw [VariantsExpand.unique hheads ih ⟨hheads', hothers⟩]
  | union hnames _ ih =>
    cases hother with
    | union hnames' hothers => rw [NamedExpand.unique hnames ih ⟨hnames', hothers⟩]

/-- What a schema mentions stands for something if the schema does, and for something well formed
if that is. -/
theorem Expands.of_mentions (hmentions : schema.Mentions name)
    (hshape : Expands table schema shape) :
    ∃ part, Expands table (.ref name) part ∧ (shape.WellFormed → part.WellFormed) := by
  induction hmentions generalizing shape with
  | ref name => exact ⟨shape, hshape, id⟩
  | element count _ ih =>
    cases hshape with
    | array _ helem =>
      obtain ⟨part, hpart, hkept⟩ := ih helem
      refine ⟨part, hpart, fun hwell => ?_⟩
      cases hwell with
      | array _ hwell => exact hkept hwell
  | field hfield _ ih =>
    cases hshape with
    | struct hnames hparts =>
      obtain ⟨field', hpair, _⟩ := Aligned.exists_of_mem hnames hfield
      obtain ⟨part, hpart, hkept⟩ := ih (hparts _ hpair)
      refine ⟨part, hpart, fun hwell => ?_⟩
      cases hwell with
      | struct _ hwell => exact hkept (hwell field' (List.of_mem_zip hpair).2)
  | payload hvariant hpayload _ ih =>
    cases hshape with
    | enum hheads hparts =>
      obtain ⟨variant', shape, hpair, hshape⟩ := exists_pair_of_payload hheads hvariant hpayload
      obtain ⟨part, hpart, hkept⟩ := ih (hparts _ hpair _ shape hpayload hshape)
      refine ⟨part, hpart, fun hwell => ?_⟩
      cases hwell with
      | enum _ _ _ hwell => exact hkept (hwell variant' (List.of_mem_zip hpair).2 shape hshape)
  | member hmember _ ih =>
    cases hshape with
    | union hnames hparts =>
      obtain ⟨member', hpair, _⟩ := Aligned.exists_of_mem hnames hmember
      obtain ⟨part, hpart, hkept⟩ := ih (hparts _ hpair)
      refine ⟨part, hpart, fun hwell => ?_⟩
      cases hwell with
      | union _ _ hwell => exact hkept (hwell member' (List.of_mem_zip hpair).2)

/-- Fields or members have shapes if each has. -/
theorem exists_namedExpand {fields : List (Named Schema)}
    (hfields : ∀ field ∈ fields, ∃ shape, Expands table field.item shape) :
    ∃ parts, NamedExpand table fields parts := by
  refine Aligned.exists_aligned fun field hfield => ?_
  obtain ⟨shape, hshape⟩ := hfields field hfield
  exact ⟨⟨field.name, shape⟩, rfl, hshape⟩

/-- Variants have shapes if each payload has. -/
theorem exists_variantsExpand {variants : List (Variant Schema)}
    (hvariants : ∀ variant ∈ variants, ∀ schema, variant.payload = some schema →
      ∃ shape, Expands table schema shape) :
    ∃ parts, VariantsExpand table variants parts := by
  refine Aligned.exists_aligned fun variant hvariant => ?_
  obtain ⟨name, tag, payload⟩ := variant
  cases payload with
  | none => exact ⟨⟨name, tag, none⟩, rfl, fun _ _ hpayload => by cases hpayload⟩
  | some schema =>
    obtain ⟨shape, hshape⟩ := hvariants _ hvariant schema rfl
    refine ⟨⟨name, tag, some shape⟩, rfl, fun schema' shape' hschema hshape' => ?_⟩
    cases hschema
    cases hshape'
    exact hshape

/-- A schema stands for something if all that it mentions does. -/
theorem exists_expands_of_mentions (schema : Schema)
    (hmentions : ∀ name, schema.Mentions name → ∃ shape, Expands table (.ref name) shape) :
    ∃ shape, Expands table schema shape := by
  induction schema with
  | ref name => exact hmentions name (.ref name)
  | scalar kind => exact ⟨.scalar kind, .scalar kind⟩
  | array elem count ih =>
    obtain ⟨shape, hshape⟩ := ih fun name hname => hmentions name (.element count hname)
    exact ⟨.array shape count, .array count hshape⟩
  | struct fields ih =>
    obtain ⟨parts, hparts⟩ := exists_namedExpand fun field hfield =>
      ih field hfield fun name hname => hmentions name (.field hfield hname)
    exact ⟨.struct parts, .struct hparts.keys hparts.pairs⟩
  | enum variants ih =>
    obtain ⟨parts, hparts⟩ := exists_variantsExpand fun variant hvariant schema hpayload =>
      ih variant hvariant schema hpayload fun name hname =>
        hmentions name (.payload hvariant hpayload hname)
    exact ⟨.enum parts, .enum hparts.keys hparts.pairs⟩
  | union members ih =>
    obtain ⟨parts, hparts⟩ := exists_namedExpand fun member hmember =>
      ih member hmember fun name hname => hmentions name (.member hmember hname)
    exact ⟨.union parts, .union hparts.keys hparts.pairs⟩

section References

variable (table)

/-- A declaration refers to a name. -/
def Refers (user used : String) : Prop :=
  ∃ schema, Table.find? user table = some schema ∧ schema.Mentions used

/-- A name is reached from another by references, or is the other. -/
def Reaches : String → String → Prop := Relation.ReflTransGen (Refers table)

/-- A name is reached from itself by references. -/
def OnCycle (name : String) : Prop := Relation.TransGen (Refers table) name name

/-- A name is declared, or is that of a scalar kind. -/
def Known (name : String) : Prop :=
  Table.contains name table = true ∨ (ScalarKind.ofName? name).isSome = true

/-- All names that are reached are known. -/
def AllKnown (name : String) : Prop := ∀ other, Reaches table name other → Known table other

/-- No name that is reached leads back to itself. -/
def NoCycle (name : String) : Prop := ∀ other, Reaches table name other → ¬OnCycle table other

end References

/-- What is reached from a name stands for something if the name does, and for something well formed
if that is. -/
theorem Expands.of_reaches {user used : String} (hreaches : Reaches table user used)
    (hshape : Expands table (.ref user) shape) :
    ∃ part, Expands table (.ref used) part ∧ (shape.WellFormed → part.WellFormed) := by
  induction hreaches with
  | refl => exact ⟨shape, hshape, id⟩
  | tail _ hrefers ih =>
    obtain ⟨schema, hfound, hmentions⟩ := hrefers
    obtain ⟨part, hpart, hkept⟩ := ih
    cases hpart with
    | declared hfound' hpart =>
      rw [hfound, Option.some.injEq] at hfound'
      subst hfound'
      obtain ⟨part', hpart', hkept'⟩ := hpart.of_mentions hmentions
      exact ⟨part', hpart', hkept' ∘ hkept⟩
    | kind hmissing _ =>
      rw [hfound] at hmissing
      cases hmissing

/-- Ways along references from a name that is on no cycle, and reaches none, end. -/
theorem acc_of_noCycle (hacyclic : NoCycle table name) :
    Acc (fun used user => Refers table user used) name := by
  classical
  -- A declaration reaches fewer declared names than its users do: not itself, for one.
  let reached (name : String) : Finset String :=
    (Table.keys table).toFinset.filter (Relation.TransGen (Refers table) name)
  induction hcount : (reached name).card using Nat.strong_induction_on generalizing name with
  | _ count ih =>
    refine ⟨name, fun used hused => ?_⟩
    by_cases hdeclared : used ∈ Table.keys table
    · have hacyclic' : NoCycle table used := fun other hother =>
        hacyclic other (.head hused hother)
      refine ih _ ?_ hacyclic' rfl
      rw [← hcount]
      refine Finset.card_lt_card (Finset.ssubset_iff_of_subset ?_ |>.mpr ⟨used, ?_, ?_⟩)
      · intro other hother
        rw [Finset.mem_filter] at hother ⊢
        exact ⟨hother.1, .head hused hother.2⟩
      · rw [Finset.mem_filter, List.mem_toFinset]
        exact ⟨hdeclared, .single hused⟩
      · rw [Finset.mem_filter]
        exact fun hcycle => hacyclic' used .refl hcycle.2
    · refine ⟨used, fun other hother => ?_⟩
      obtain ⟨schema, hfound, _⟩ := hother
      exact absurd (Table.mem_keys_of_find? hfound) hdeclared

/-- A name from which only known names and no cycles are reached stands for a shape. -/
theorem exists_expands (hknown : AllKnown table name) (hacyclic : NoCycle table name) :
    ∃ shape, Expands table (.ref name) shape := by
  induction acc_of_noCycle hacyclic with
  | intro name _ ih =>
    cases hfound : Table.find? name table with
    | none =>
      rcases hknown name .refl with hdeclared | hkind
      · rw [Table.contains, hfound] at hdeclared
        cases hdeclared
      · obtain ⟨kind, hkind⟩ := Option.isSome_iff_exists.mp hkind
        exact ⟨.scalar kind, .kind hfound hkind⟩
    | some schema =>
      obtain ⟨shape, hshape⟩ := exists_expands_of_mentions schema fun used hmentions =>
        have hused : Refers table name used := ⟨schema, hfound, hmentions⟩
        ih used hused (fun other hother => hknown other (.head hused hother))
          fun other hother => hacyclic other (.head hused hother)
      exact ⟨shape, .declared hfound hshape⟩

/-- References from a name that stands for a shape end. -/
theorem Expands.acc (hshape : Expands table schema shape) (hmentions : schema.Mentions name) :
    Acc (fun used user => Refers table user used) name := by
  induction hshape generalizing name with
  | declared hfound _ ih =>
    cases hmentions
    refine ⟨_, fun used hused => ?_⟩
    obtain ⟨schema, hfound', hmentions⟩ := hused
    rw [hfound, Option.some.injEq] at hfound'
    exact ih (hfound' ▸ hmentions)
  | kind hmissing _ =>
    cases hmentions
    refine ⟨_, fun used hused => ?_⟩
    obtain ⟨schema, hfound, _⟩ := hused
    rw [hmissing] at hfound
    cases hfound
  | scalar kind => cases hmentions
  | array count _ ih =>
    cases hmentions with
    | element _ hmentions => exact ih hmentions
  | struct hnames _ ih =>
    cases hmentions with
    | field hfield hmentions =>
      obtain ⟨part, hpair, _⟩ := Aligned.exists_of_mem hnames hfield
      exact ih _ hpair hmentions
  | enum hheads _ ih =>
    cases hmentions with
    | payload hvariant hpayload hmentions =>
      obtain ⟨part, shape, hpair, hshape⟩ := exists_pair_of_payload hheads hvariant hpayload
      exact ih _ hpair _ shape hpayload hshape hmentions
  | union hnames _ ih =>
    cases hmentions with
    | member hmember hmentions =>
      obtain ⟨part, hpair, _⟩ := Aligned.exists_of_mem hnames hmember
      exact ih _ hpair hmentions

/-- A name that stands for a shape is known, and so are all that it reaches. -/
theorem Expands.allKnown (hshape : Expands table (.ref name) shape) : AllKnown table name := by
  intro other hother
  obtain ⟨part, hpart, _⟩ := hshape.of_reaches hother
  cases hpart with
  | declared hfound _ => exact Or.inl (Option.isSome_iff_exists.mpr ⟨_, hfound⟩)
  | kind _ hkind => exact Or.inr (Option.isSome_iff_exists.mpr ⟨_, hkind⟩)

/-- A name that stands for a shape reaches no cycle: references from one would not end. -/
theorem Expands.noCycle (hshape : Expands table (.ref name) shape) : NoCycle table name := by
  intro other hother hcycle
  obtain ⟨part, hpart, _⟩ := hshape.of_reaches hother
  have hends : Acc (Relation.TransGen fun used user => Refers table user used) other :=
    (hpart.acc (.ref other)).transGen
  have hback := Relation.transGen_swap.mpr hcycle
  clear hother hpart hcycle
  induction hends with
  | intro other _ ih => exact ih other hback hback

end Schema

end WireParity
