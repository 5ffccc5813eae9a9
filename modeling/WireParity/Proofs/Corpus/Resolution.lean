import WireParity.Proofs.Corpus.Expansion

/-!
# How names resolve

Resolution works with a memory and with a list of the names it is in the middle of, and looks at
types one inside the other. None of that shows in the result: a name resolves to the shape it stands
for if it has one that is well formed, and otherwise not at all. `resolveName` is one level of the
work. Each level adds a declared name that was not in progress, so the levels end on their own, and
what happens past as many levels as there are declarations plays no part.
-/

namespace WireParity

namespace Samples

/-- Types that share one, with a name that shadows that of a scalar kind, one that is unknown and
one that leads back to itself. -/
def sharedTypes : Table Schema :=
  [("loop", .struct [⟨"size", .ref "u16"⟩, ⟨"next", .array (.ref "loop") 2⟩]),
    ("lost", .enum [⟨"Some", 1, some (.ref "nowhere")⟩]),
    ("pair", .struct [⟨"first", .ref "u16"⟩, ⟨"second", .ref "u16"⟩, ⟨"third", .ref "u8"⟩]),
    ("u16", .array (.ref "u32") 3)]

end Samples

open Schema

namespace Resolving

variable {α β : Type}

/-- An outcome that leaves the resolver within an invariant. A result is good, and there is one if
nothing is in the way. -/
inductive Settles (inv : Resolver → Prop) (good : α → Prop) (clear : Prop) :
    Except TypeFault α × Resolver → Prop
  | ok {a : α} {r : Resolver} : inv r → good a → Settles inv good clear (.ok a, r)
  | error {e : TypeFault} {r : Resolver} : inv r → ¬clear → Settles inv good clear (.error e, r)

/-- Within an invariant, two steps have the same outcome, and it settles the matter. -/
def Alike (inv : Resolver → Prop) (good : α → Prop) (clear : Prop) (f g : Resolving α) : Prop :=
  ∀ r, inv r → f r = g r ∧ Settles inv good clear (f r)

variable {inv : Resolver → Prop} {good : α → Prop} {good' : β → Prop} {clear : Prop}
  {f g : Resolving α} {next next' : α → Resolving β} {outcome : Except TypeFault α × Resolver}

/-- The outcome is within the invariant either way. -/
theorem Settles.kept (h : Settles inv good clear outcome) : inv outcome.2 := by
  cases h with
  | ok hr _ => exact hr
  | error hr _ => exact hr

/-- More may count as good, and more may be in the way. -/
theorem Settles.weaken {better : α → Prop} {clearer : Prop} (h : Settles inv good clear outcome)
    (hgood : ∀ a, good a → better a) (hclear : clearer → clear) :
    Settles inv better clearer outcome := by
  cases h with
  | ok hr ha => exact .ok hr (hgood _ ha)
  | error hr hblocked => exact .error hr (hblocked ∘ hclear)

/-- Being done changes nothing. -/
theorem alike_done {a : α} (hgood : good a) : Alike inv good clear (done a) (done a) :=
  fun _ hr => ⟨rfl, .ok hr hgood⟩

/-- Steps that are alike go on alike, if what follows a good result does. -/
theorem Alike.andThen (hfirst : Alike inv good clear f g)
    (hnext : ∀ a, good a → Alike inv good' clear (next a) (next' a)) :
    Alike inv good' clear (f.andThen next) (g.andThen next') := by
  intro r hr
  obtain ⟨hsame, hsettles⟩ := hfirst r hr
  rw [Resolving.andThen, Resolving.andThen, ← hsame]
  generalize f r = outcome at hsettles
  cases hsettles with
  | ok hr' hgood => exact hnext _ hgood _ hr'
  | error hr' hblocked => exact ⟨rfl, .error hr' hblocked⟩

/-- Steps that are alike stay so where more counts as good, and more is in the way. -/
theorem Alike.weaken {better : α → Prop} {clearer : Prop} (h : Alike inv good clear f g)
    (hgood : ∀ a, good a → better a) (hclear : clearer → clear) : Alike inv better clearer f g :=
  fun r hr => ⟨(h r hr).1, (h r hr).2.weaken hgood hclear⟩

end Resolving

namespace Resolver

open Resolving

variable {table : Table Schema} {f g : String → Resolving Shape} {inv : Resolver → Prop}
  {clear : Prop}

/-- Fields or members expand alike if each does. -/
theorem alike_expandNamed {fields : List (Named Schema)}
    (hfields : ∀ field ∈ fields,
      Alike inv (Expands table field.item) clear (expand f field.item) (expand g field.item)) :
    Alike inv (NamedExpand table fields) clear (expandNamed f fields) (expandNamed g fields) := by
  induction fields with
  | nil =>
    rw [expandNamed, expandNamed]
    exact alike_done .nil
  | cons field fields ih =>
    obtain ⟨name, schema⟩ := field
    rw [List.forall_mem_cons] at hfields
    rw [expandNamed, expandNamed]
    refine hfields.1.andThen fun shape hshape => ?_
    refine (ih hfields.2).andThen fun parts hparts => ?_
    exact alike_done (hparts.cons rfl hshape)

/-- Variants expand alike if each payload does. -/
theorem alike_expandVariants {variants : List (Variant Schema)}
    (hvariants : ∀ variant ∈ variants, ∀ schema, variant.payload = some schema →
      Alike inv (Expands table schema) clear (expand f schema) (expand g schema)) :
    Alike inv (VariantsExpand table variants) clear (expandVariants f variants)
      (expandVariants g variants) := by
  induction variants with
  | nil =>
    rw [expandVariants, expandVariants]
    exact alike_done .nil
  | cons variant variants ih =>
    obtain ⟨name, tag, payload⟩ := variant
    rw [List.forall_mem_cons] at hvariants
    cases payload with
    | none =>
      rw [expandVariants, expandVariants]
      refine (ih hvariants.2).andThen fun parts hparts => alike_done (hparts.cons rfl ?_)
      intro schema shape hschema
      cases hschema
    | some schema =>
      rw [expandVariants, expandVariants]
      refine (hvariants.1 schema rfl).andThen fun shape hshape => ?_
      refine (ih hvariants.2).andThen fun parts hparts => alike_done (hparts.cons rfl ?_)
      intro schema' shape' hschema hshape'
      cases hschema
      cases hshape'
      exact hshape

/-- A schema expands alike, to what it stands for, if all that it mentions resolves so. -/
theorem alike_expand (schema : Schema)
    (hnames : ∀ name, schema.Mentions name →
      Alike inv (Expands table (.ref name)) clear (f name) (g name)) :
    Alike inv (Expands table schema) clear (expand f schema) (expand g schema) := by
  induction schema with
  | ref name =>
    rw [expand, expand]
    exact hnames name (.ref name)
  | scalar kind =>
    rw [expand, expand]
    exact alike_done (.scalar kind)
  | array elem count ih =>
    rw [expand, expand]
    refine (ih fun name hname => hnames name (.element count hname)).andThen fun shape hshape => ?_
    exact alike_done (.array count hshape)
  | struct fields ih =>
    rw [expand, expand]
    have hfields := alike_expandNamed fun field hfield =>
      ih field hfield fun name hname => hnames name (.field hfield hname)
    exact hfields.andThen fun parts hparts => alike_done (.struct hparts.keys hparts.pairs)
  | enum variants ih =>
    rw [expand, expand]
    have hvariants := alike_expandVariants fun variant hvariant schema hpayload =>
      ih variant hvariant schema hpayload fun name hname =>
        hnames name (.payload hvariant hpayload hname)
    exact hvariants.andThen fun parts hparts => alike_done (.enum hparts.keys hparts.pairs)
  | union members ih =>
    rw [expand, expand]
    have hmembers := alike_expandNamed fun member hmember =>
      ih member hmember fun name hname => hnames name (.member hmember hname)
    exact hmembers.andThen fun parts hparts => alike_done (.union hparts.keys hparts.pairs)

section Level

variable (table)

/-- The shape of a name that is declared by a schema, given how names resolve that the schema
mentions. -/
def resolveDeclared (named : String → Resolving Shape) (name : String) (schema : Schema) :
    Resolving Shape := fun r =>
  match expand named schema (r.enter name) with
  | (.error e, r) => (.error e, r.leave)
  | (.ok shape, r) =>
    match shape.validate with
    | .error e => (.error (.invalid name e), r.leave)
    | .ok () => (.ok shape, r.leave.remember name shape)

/-- One level of resolution: the shape of a name, given how other names resolve. -/
def resolveName (named : String → Resolving Shape) (name : String) : Resolving Shape := fun r =>
  match Table.find? name r.resolved with
  | some shape => (.ok shape, r)
  | none =>
    match Table.find? name table with
    | none =>
      match ScalarKind.ofName? name with
      | some kind => (.ok (.scalar kind), r)
      | none => (.error (.unknown name), r)
    | some schema =>
      if name ∈ r.inProgress then (.error (.recursive r.inProgress name), r)
      else resolveDeclared named name schema r

/-- Resolution within a depth is as many levels, one inside the other. -/
theorem namedWithin_eq_iterate (depth : Nat) :
    namedWithin table depth = (resolveName table)^[depth] (namedWithin table 0) := by
  induction depth with
  | zero => rfl
  | succ depth ih =>
    rw [Function.iterate_succ_apply', ← ih]
    rfl

/-- A name stands for a well-formed shape. -/
def Stands (name : String) (shape : Shape) : Prop :=
  Expands table (.ref name) shape ∧ shape.WellFormed

/-- Nothing is in the way of resolving a name while others are in progress. -/
def Clear (stack : List String) (name : String) : Prop :=
  (∃ shape, Stands table name shape) ∧ ∀ other ∈ stack, ¬Reaches table name other

/-- A resolver in the middle of some names, that remembers only what names stand for. -/
structure At (stack : List String) (r : Resolver) : Prop where
  inProgress : r.inProgress = stack
  remembered : ∀ name shape, Table.find? name r.resolved = some shape → Stands table name shape

/-- How many declared names are not in progress. -/
def remaining (stack : List String) : Nat := ((Table.keys table).toFinset \ stack.toFinset).card

end Level

variable {stack : List String} {name : String} {shape : Shape} {schema : Schema} {r : Resolver}

/-- Entering a name puts it in progress. -/
theorem At.enter (hr : At table stack r) (name : String) :
    At table (stack ++ [name]) (r.enter name) := by
  refine ⟨?_, hr.remembered⟩
  rw [Resolver.enter, hr.inProgress]

/-- Leaving a name takes it out of progress. -/
theorem At.leave (hr : At table (stack ++ [name]) r) : At table stack r.leave := by
  refine ⟨?_, hr.remembered⟩
  rw [Resolver.leave, hr.inProgress, List.dropLast_concat]

/-- What a name stands for may be remembered. -/
theorem At.remember (hr : At table stack r) (hstands : Stands table name shape) :
    At table stack (r.remember name shape) := by
  refine ⟨hr.inProgress, fun other shape' hfound => ?_⟩
  rw [Resolver.remember] at hfound
  by_cases hother : other = name
  · subst hother
    rw [Table.find?_insert_self, Option.some.injEq] at hfound
    exact hfound ▸ hstands
  · rw [Table.find?_insert_of_ne hother] at hfound
    exact hr.remembered other shape' hfound

/-- A resolver that remembers nothing is in the middle of nothing. -/
theorem at_fresh : At table [] fresh := by
  refine ⟨rfl, fun name shape hfound => ?_⟩
  cases hfound

/-- The names that a clear one is declared by are clear of it too: it is on no cycle. -/
theorem Clear.of_refers (hclear : Clear table stack name) {used : String}
    (hrefers : Refers table name used) : Clear table (stack ++ [name]) used := by
  obtain ⟨⟨shape, hexpands, hwell⟩, hapart⟩ := hclear
  obtain ⟨part, hpart, hkept⟩ := hexpands.of_reaches (.single hrefers)
  refine ⟨⟨part, hpart, hkept hwell⟩, fun other hother hreaches => ?_⟩
  rcases List.mem_append.mp hother with hother | hother
  · exact hapart other hother (.head hrefers hreaches)
  · rw [List.mem_singleton] at hother
    subst hother
    exact hexpands.noCycle other .refl (.head' hrefers hreaches)

/-- Where what a name is declared as expands to anything ill formed, the name is not clear. -/
theorem not_clear_of_validate {fault : CodecError} (hexpands : Expands table (.ref name) shape)
    (hvalid : shape.validate = .error fault) : ¬Clear table stack name := by
  intro hclear
  obtain ⟨⟨other, hother, hwell⟩, _⟩ := hclear
  rw [← hexpands.unique hother, ← Shape.validateAt_eq_ok_iff shape Path.root] at hwell
  rw [Shape.validate, hwell] at hvalid
  cases hvalid

/-- A declared name resolves alike if the names that its schema mentions do, one level further in. -/
theorem alike_resolveDeclared (hfound : Table.find? name table = some schema)
    (hdeeper : ∀ used, Refers table name used →
      Alike (At table (stack ++ [name])) (Stands table used) (Clear table (stack ++ [name]) used)
        (f used) (g used)) :
    Alike (At table stack) (Stands table name) (Clear table stack name)
      (resolveDeclared f name schema) (resolveDeclared g name schema) := by
  intro r hr
  have hexpand : Alike (At table (stack ++ [name])) (Expands table schema) (Clear table stack name)
      (expand f schema) (expand g schema) := by
    refine alike_expand schema fun used hmentions => ?_
    have hrefers : Refers table name used := ⟨schema, hfound, hmentions⟩
    exact (hdeeper used hrefers).weaken (fun _ hstands => hstands.1) fun hclear =>
      hclear.of_refers hrefers
  obtain ⟨hsame, hsettles⟩ := hexpand (r.enter name) (hr.enter name)
  rw [resolveDeclared, resolveDeclared, ← hsame]
  refine ⟨rfl, ?_⟩
  generalize expand f schema (r.enter name) = outcome at hsettles
  cases hsettles with
  | error hr' hblocked => exact .error hr'.leave hblocked
  | @ok shape r' hr' hexpands =>
    have hexpands := Expands.declared hfound hexpands
    simp only
    cases hvalid : shape.validate with
    | error fault => exact .error hr'.leave (not_clear_of_validate hexpands hvalid)
    | ok done =>
      have hstands : Stands table name shape := ⟨hexpands, Shape.wellFormed_of_validate hvalid⟩
      exact .ok (hr'.leave.remember hstands) hstands

/-- A name resolves alike if the names that it is declared by do, one level further in. -/
theorem alike_resolveName
    (hdeeper : name ∉ stack → ∀ used, Refers table name used →
      Alike (At table (stack ++ [name])) (Stands table used) (Clear table (stack ++ [name]) used)
        (f used) (g used)) :
    Alike (At table stack) (Stands table name) (Clear table stack name)
      (resolveName table f name) (resolveName table g name) := by
  intro r hr
  cases hmemory : Table.find? name r.resolved with
  | some shape =>
    simp only [resolveName, hmemory, true_and]
    exact .ok hr (hr.remembered name shape hmemory)
  | none =>
    cases hfound : Table.find? name table with
    | none =>
      cases hkind : ScalarKind.ofName? name with
      | some kind =>
        simp only [resolveName, hmemory, hfound, hkind, true_and]
        exact .ok hr ⟨.kind hfound hkind, .scalar kind⟩
      | none =>
        simp only [resolveName, hmemory, hfound, hkind, true_and]
        refine .error hr fun hclear => ?_
        obtain ⟨⟨shape, hexpands, _⟩, _⟩ := hclear
        cases hexpands with
        | declared hfound' _ => rw [hfound] at hfound'; cases hfound'
        | kind _ hkind' => rw [hkind] at hkind'; cases hkind'
    | some schema =>
      simp only [resolveName, hmemory, hfound, hr.inProgress]
      by_cases hname : name ∈ stack
      · simp only [if_pos hname, true_and]
        exact .error hr fun hclear => hclear.2 name hname .refl
      · simp only [if_neg hname]
        exact alike_resolveDeclared hfound (hdeeper hname) r hr

/-- A declared name that is put in progress leaves fewer. -/
theorem remaining_append_lt (hdeclared : name ∈ Table.keys table) (hname : name ∉ stack) :
    remaining table (stack ++ [name]) < remaining table stack := by
  refine Finset.card_lt_card (Finset.ssubset_iff_of_subset ?_ |>.mpr ⟨name, ?_, ?_⟩)
  · intro other hother
    simp only [List.toFinset_append, Finset.mem_sdiff, Finset.mem_union, not_or] at hother ⊢
    exact ⟨hother.1, hother.2.1⟩
  · simp [hdeclared, hname]
  · simp

/-- There are no more names to put in progress than declarations. -/
theorem remaining_le (stack : List String) : remaining table stack ≤ table.length := by
  calc
    remaining table stack ≤ (Table.keys table).toFinset.card :=
      Finset.card_le_card Finset.sdiff_subset
    _ ≤ (Table.keys table).length := List.toFinset_card_le _
    _ = table.length := List.length_map _

/-- Names resolve alike with any two numbers of levels that exceed the names not in progress,
whatever the levels past them would do. -/
theorem alike_iterate {depth depth' : Nat} (hdepth : remaining table stack < depth)
    (hdepth' : remaining table stack < depth') (name : String) :
    Alike (At table stack) (Stands table name) (Clear table stack name)
      ((resolveName table)^[depth] f name) ((resolveName table)^[depth'] g name) := by
  induction depth generalizing depth' stack name with
  | zero => exact absurd hdepth (Nat.not_lt_zero _)
  | succ depth ih =>
    cases depth' with
    | zero => exact absurd hdepth' (Nat.not_lt_zero _)
    | succ depth' =>
      rw [Function.iterate_succ_apply', Function.iterate_succ_apply']
      refine alike_resolveName fun hname used hrefers => ?_
      obtain ⟨schema, hfound, _⟩ := hrefers
      have hless := remaining_append_lt (Table.mem_keys_of_find? hfound) hname
      exact ih (by omega) (by omega) used

/-- Resolution does what any number of levels do that exceeds the declarations. -/
theorem alike_named {depth : Nat} (hdepth : table.length < depth) (name : String) :
    Alike (At table stack) (Stands table name) (Clear table stack name) (named table name)
      ((resolveName table)^[depth] f name) := by
  have hremaining : remaining table stack ≤ table.length := remaining_le stack
  have hnamed : named table name = (resolveName table)^[table.length + 1] (namedWithin table 0) name :=
    congrFun (namedWithin_eq_iterate table (table.length + 1)) name
  rw [hnamed]
  exact alike_iterate (by omega) (by omega) name

/-- What resolving a name comes to, with nothing in progress. -/
theorem settles_named (hr : At table [] r) (name : String) :
    Settles (At table []) (Stands table name) (∃ shape, Stands table name shape)
      (named table name r) := by
  have hsettles := (alike_named (f := namedWithin table 0) (Nat.lt_succ_self _) name r hr).2
  exact hsettles.weaken (fun _ => id) fun hstands =>
    ⟨hstands, fun _ hother => absurd hother List.not_mem_nil⟩

/-- What expanding a schema comes to, with nothing in progress. -/
theorem settles_expand (hr : At table [] r) (schema : Schema) :
    Settles (At table []) (Expands table schema)
      (∀ name, schema.Mentions name → ∃ shape, Stands table name shape)
      (expand (named table) schema r) := by
  have hexpand := alike_expand (g := named table) schema fun name hmentions r hr =>
    ⟨rfl, (settles_named hr name).weaken (fun _ hstands => hstands.1)
      fun hclear : ∀ name, schema.Mentions name → _ => hclear name hmentions⟩
  exact (hexpand r hr).2

section Sessions

variable (table)

/-- The states that a resolver can be left in by earlier work, whether it succeeded or failed. -/
inductive Left : Resolver → Prop
  | fresh : Left fresh
  | named {r : Resolver} (name : String) : Left r → Left (Resolver.named table name r).2
  | expand {r : Resolver} (schema : Schema) :
      Left r → Left (Resolver.expand (Resolver.named table) schema r).2

end Sessions

/-- Earlier work leaves nothing in progress, and only what names stand for in memory. -/
theorem Left.at (hleft : Left table r) : At table [] r := by
  induction hleft with
  | fresh => exact at_fresh
  | named name _ ih => exact (settles_named ih name).kept
  | expand schema _ ih => exact (settles_expand ih schema).kept

/-- Names resolve to what they stand for, whatever work came before, and resolution ends. The levels
past as many as there are declarations play no part, nothing is left in progress that was not
before, and there is a result exactly where only known names and no cycles are reached and what is
left without references passes validation. -/
theorem named_resolves (hleft : Left table r) (name : String) :
    (∀ (beyond : String → Resolving Shape) (depth : Nat), table.length < depth →
      (resolveName table)^[depth] beyond name r = named table name r) ∧
    (named table name r).2.inProgress = r.inProgress ∧
    (AllKnown table name → NoCycle table name → ∃! shape, Expands table (.ref name) shape) ∧
    ∀ shape, (named table name r).1 = .ok shape ↔
      AllKnown table name ∧ NoCycle table name ∧ Expands table (.ref name) shape ∧
        shape.validate = .ok () := by
  have hr := hleft.at
  have hsettles := settles_named hr name
  refine ⟨fun beyond depth hdepth => (alike_named hdepth name r hr).1.symm, ?_, ?_, ?_⟩
  · rw [hsettles.kept.inProgress, hr.inProgress]
  · intro hknown hacyclic
    obtain ⟨shape, hexpands⟩ := exists_expands hknown hacyclic
    exact ⟨shape, hexpands, fun other hother => hother.unique hexpands⟩
  · intro shape
    generalize named table name r = outcome at hsettles
    refine ⟨fun hresult => ?_, fun hdemands => ?_⟩
    · cases hsettles with
      | error _ _ => cases hresult
      | ok _ hstands =>
        cases hresult
        obtain ⟨hexpands, hwell⟩ := hstands
        exact ⟨hexpands.allKnown, hexpands.noCycle, hexpands,
          (Shape.validateAt_eq_ok_iff shape Path.root).mpr hwell⟩
    · obtain ⟨_, _, hexpands, hvalid⟩ := hdemands
      have hstands : Stands table name shape := ⟨hexpands, Shape.wellFormed_of_validate hvalid⟩
      cases hsettles with
      | error _ hblocked => exact absurd ⟨shape, hstands⟩ hblocked
      | ok _ hother => rw [hother.1.unique hexpands]

/-- After a failure inside a type that leads back to itself, and one for an unknown name, a type
resolves in which both of the names occur that were met on the way. -/
theorem named_resolves_after_failures :
    let left := (named Samples.sharedTypes "lost" (named Samples.sharedTypes "loop" fresh).2).2
    let words := Shape.array (.scalar .u32) 3
    let pair := Shape.struct [⟨"first", words⟩, ⟨"second", words⟩, ⟨"third", .scalar .u8⟩]
    Left Samples.sharedTypes left ∧ Table.keys left.resolved = ["u16"] ∧
      (named Samples.sharedTypes "pair" left).1 = .ok pair ∧
      (named Samples.sharedTypes "pair" left).2.inProgress = left.inProgress ∧
      AllKnown Samples.sharedTypes "pair" ∧ NoCycle Samples.sharedTypes "pair" ∧
      Expands Samples.sharedTypes (.ref "pair") pair ∧ pair.validate = .ok () ∧
      ¬NoCycle Samples.sharedTypes "loop" := by
  intro left words pair
  have hleft : Left Samples.sharedTypes left := .named "lost" (.named "loop" .fresh)
  obtain ⟨_, hkept, _, hresult⟩ := named_resolves hleft "pair"
  have hpair : (named Samples.sharedTypes "pair" left).1 = .ok pair := rfl
  obtain ⟨hknown, hacyclic, hexpands, hvalid⟩ := (hresult pair).mp hpair
  refine ⟨hleft, rfl, hpair, hkept, hknown, hacyclic, hexpands, hvalid, fun hloop => ?_⟩
  have hnext : (⟨"next", .array (.ref "loop") 2⟩ : Named Schema) ∈
      [⟨"size", .ref "u16"⟩, ⟨"next", .array (.ref "loop") 2⟩] :=
    List.mem_cons_of_mem _ List.mem_cons_self
  exact hloop "loop" .refl (.single ⟨_, rfl, .field hnext (.element 2 (.ref "loop"))⟩)

end Resolver

end WireParity
