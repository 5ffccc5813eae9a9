import WireParity.Shape.Outline
import WireParity.Proofs.Shape.Extent

/-!
# Layout tables tile

A layout table is one list of rows, in which what lies inside a row follows it one level deeper. Rows
do not say which part of the shape they are about, and two parts may have equal rows; an
`OutlineEntry` is a row together with its part. `Encloses` says what the entries directly inside an
entry are: the parts of its part, back to back and without a gap, but for a sampled element, which
stands for all elements of an array.

A part takes up a block of the list: its own entry, then blocks one level deeper. What comes after a
block does not matter to the entries in it, as long as it starts no deeper than the block itself;
`Block` carries this along, so that blocks may be put one after another and inside one another. The
walk over the shape then only has to show that it makes one block for each part.
-/

namespace WireParity

/-- A row of a layout table and the part of the shape that it is about. The tag of an enum counts as
the number of one byte that it is. -/
structure OutlineEntry where
  part : Shape
  row : OutlineRow

namespace OutlineRow

/-- Where a row ends. -/
def stop (row : OutlineRow) : Nat := row.offset + row.size

/-- Rows lie back to back: the first at an offset, and each other where the one before it ends. -/
def BackToBack (offset : Nat) : List OutlineRow → Prop
  | [] => True
  | row :: rest => row.offset = offset ∧ BackToBack row.stop rest

/-- Of rows back to back, none ends beyond the sum of all sizes. -/
theorem BackToBack.stop_le {offset : Nat} {rows : List OutlineRow} (h : BackToBack offset rows)
    {row : OutlineRow} (hrow : row ∈ rows) : row.stop ≤ offset + (rows.map size).sum := by
  induction rows generalizing offset with
  | nil => cases hrow
  | cons first rows ih =>
    obtain ⟨hoffset, hrest⟩ := h
    rw [List.map_cons, List.sum_cons]
    rcases List.mem_cons.mp hrow with rfl | hrow
    · simp only [stop, hoffset]
      omega
    · have hstop := ih hrest hrow
      rw [show first.stop = offset + first.size by rw [stop, hoffset]] at hstop
      omega

end OutlineRow

namespace OutlineEntry

/-- The entries directly inside an entry: of those that follow it, up to the next that is not deeper,
the ones that are one level deeper. -/
def inside (entry : OutlineEntry) (after : List OutlineEntry) : List OutlineEntry :=
  (after.takeWhile fun other => entry.row.depth < other.row.depth).filter fun other =>
    other.row.depth = entry.row.depth + 1

end OutlineEntry

namespace Shape

/-- The rows directly inside that of a shape take up all of it. In a scalar there are none, and of an
array with static elements there is one element for all of them. -/
def tiled : Shape → Bool
  | scalar _ => false
  | array elem count => count == 0 || !elem.isStatic
  | _ => true

/-- The parts directly inside a shape at a path, in order and with their paths: of an enum the tag
and the payload of the selected variant, of a union the selected member. -/
def partsAt (s : Selections) (path : String) : Shape → List (Shape × String)
  | scalar _ => []
  | array elem count =>
    (List.range count.toNat).map fun index => (elem, Path.element path index)
  | struct fields => fields.map fun field => (field.item, Path.child path field.name)
  | enum variants =>
    let variant := (s.get? path).bind fun name => (enum variants).variantNamed? name
    (scalar .u8, Path.child path "<tag>") ::
      (variant.bind fun v => v.payload.map fun shape => (shape, Path.child path v.name)).toList
  | union members =>
    let member := (s.get? path).bind fun name => (union members).memberNamed? name
    (member.map fun m => (m.item, Path.child path m.name)).toList

/-- The entry of a shape with its own row. -/
def entryAt (shape : Shape) (path : String) (offset size depth : Nat) : OutlineEntry :=
  ⟨shape, ⟨path, shape.text, offset, size, depth⟩⟩

end Shape

/-- Entries tile a span: they are about the given parts, lie back to back from an offset on, and have
the given size together. -/
structure Tiles (parts : List (Shape × String)) (offset size : Nat) (inside : List OutlineEntry) :
    Prop where
  parts : inside.map (fun entry => (entry.part, entry.row.path)) = parts
  backToBack : OutlineRow.BackToBack offset (inside.map OutlineEntry.row)
  sizes : ((inside.map OutlineEntry.row).map OutlineRow.size).sum = size

namespace Tiles

variable {parts : List (Shape × String)} {offset size : Nat} {inside : List OutlineEntry}

/-- Without parts there is nothing to tile. -/
theorem nil (offset : Nat) : Tiles [] offset 0 [] := ⟨rfl, trivial, rfl⟩

/-- A part goes before what is tiled from its end on. -/
theorem cons {shape : Shape} {path : String} {first depth : Nat}
    (h : Tiles parts (offset + first) size inside) :
    Tiles ((shape, path) :: parts) offset (first + size)
      (shape.entryAt path offset first depth :: inside) := by
  refine ⟨?_, ⟨rfl, h.backToBack⟩, ?_⟩
  · rw [List.map_cons, h.parts]
    rfl
  · rw [List.map_cons, List.map_cons, List.sum_cons, h.sizes]
    rfl

/-- No tile ends beyond the span. -/
theorem stop_le (h : Tiles parts offset size inside) {entry : OutlineEntry}
    (hentry : entry ∈ inside) : entry.row.stop ≤ offset + size := by
  rw [← h.sizes]
  exact h.backToBack.stop_le (List.mem_map_of_mem hentry)

end Tiles

/-- The entries directly inside the row of a part are what they should be. -/
inductive Encloses (s : Selections) : Shape → OutlineRow → List OutlineEntry → Prop
  /-- Nothing is inside a scalar, or a tag. -/
  | scalar (kind : ScalarKind) (row : OutlineRow) : Encloses s (.scalar kind) row []
  /-- If an array has static elements, and any, the first stands for all of them. -/
  | sampled {elem : Shape} {count : UInt64} {row child : OutlineRow} :
      0 < count → elem.isStatic = true →
      child.path = Path.anyElement row.path → child.offset = row.offset →
      child.size * count.toNat = row.size →
      Encloses s (.array elem count) row [⟨elem, child⟩]
  /-- Everything else is tiled by its parts. -/
  | tiled {part : Shape} {row : OutlineRow} {inside : List OutlineEntry} :
      part.tiled = true → Tiles (part.partsAt s row.path) row.offset row.size inside →
      Encloses s part row inside

/-- Each entry encloses what it should. -/
def Nested (s : Selections) (entries : List OutlineEntry) : Prop :=
  ∀ entry after, entry :: after <:+ entries →
    Encloses s entry.part entry.row (entry.inside after)

/-- Entries are nested if the first encloses what it should and the others are nested. -/
theorem nested_cons_iff {s : Selections} {entry : OutlineEntry} {after : List OutlineEntry} :
    Nested s (entry :: after) ↔
      Encloses s entry.part entry.row (entry.inside after) ∧ Nested s after := by
  refine ⟨fun h => ⟨h entry after List.suffix_rfl, fun other rest hrest =>
    h other rest (hrest.trans (List.suffix_cons entry after))⟩, ?_⟩
  rintro ⟨hfirst, hrest⟩ other rest hsuffix
  rcases List.suffix_cons_iff.mp hsuffix with hsame | hsuffix
  · cases hsame
    exact hfirst
  · exact hrest other rest hsuffix

/-- Entries start no deeper than a depth. -/
def Shallow (depth : Nat) (entries : List OutlineEntry) : Prop :=
  ∀ entry ∈ entries.head?, entry.row.depth ≤ depth

/-- Of what follows an entry, nothing is looked at from the first that is not deeper on. -/
theorem OutlineEntry.inside_append (first : OutlineEntry) {entries rest : List OutlineEntry}
    (hdeeper : ∀ entry ∈ entries, first.row.depth < entry.row.depth)
    (hrest : Shallow first.row.depth rest) :
    first.inside (entries ++ rest) =
      entries.filter fun entry => entry.row.depth = first.row.depth + 1 := by
  have hnone : rest.takeWhile (fun other => decide (first.row.depth < other.row.depth)) = [] := by
    cases rest with
    | nil => rfl
    | cons other rest =>
      have hother := hrest other rfl
      rw [List.takeWhile_cons, if_neg (by simpa using hother)]
  rw [inside, List.takeWhile_append_of_pos (by simpa using hdeeper), hnone, List.append_nil]

/-- The entries of a part: the one of the part itself, and then deeper ones. They show the types of
their parts and end within the part, and they are nested before whatever starts no deeper. -/
structure Block (s : Selections) (first : OutlineEntry) (entries : List OutlineEntry) : Prop where
  head : ∃ inner, entries = first :: inner ∧ ∀ entry ∈ inner, first.row.depth < entry.row.depth
  typed : ∀ entry ∈ entries, entry.row.type = entry.part.text
  within : ∀ entry ∈ entries, entry.row.stop ≤ first.row.stop
  nested : ∀ rest, Shallow first.row.depth rest → Nested s rest → Nested s (entries ++ rest)

/-- Blocks of parts at one depth, one after another. -/
inductive Blocks (s : Selections) (depth : Nat) : List OutlineEntry → List OutlineEntry → Prop
  | nil : Blocks s depth [] []
  | cons {first : OutlineEntry} {block firsts entries : List OutlineEntry} :
      first.row.depth = depth → Block s first block → Blocks s depth firsts entries →
      Blocks s depth (first :: firsts) (block ++ entries)

namespace Blocks

variable {s : Selections} {depth : Nat} {firsts entries rest : List OutlineEntry}

/-- One block is a list of blocks. -/
theorem singleton {first : OutlineEntry} (hblock : Block s first entries) :
    Blocks s first.row.depth [first] entries := by
  have h : Blocks s first.row.depth [first] (entries ++ []) := .cons rfl hblock .nil
  rwa [List.append_nil] at h

/-- No entry of the blocks is less deep than their first ones. -/
theorem depth_le (h : Blocks s depth firsts entries) {entry : OutlineEntry}
    (hentry : entry ∈ entries) : depth ≤ entry.row.depth := by
  induction h with
  | nil => cases hentry
  | cons hdepth hblock _ ih =>
    rcases List.mem_append.mp hentry with hentry | hentry
    · obtain ⟨inner, rfl, hdeeper⟩ := hblock.head
      rcases List.mem_cons.mp hentry with rfl | hinner
      · exact hdepth.ge
      · have := hdeeper entry hinner
        omega
    · exact ih hentry

/-- Only the first entries of the blocks are at their depth. -/
theorem filter_depth (h : Blocks s depth firsts entries) :
    entries.filter (fun entry => entry.row.depth = depth) = firsts := by
  induction h with
  | nil => rfl
  | cons hdepth hblock _ ih =>
    obtain ⟨inner, rfl, hdeeper⟩ := hblock.head
    have hinner : inner.filter (fun entry => decide (entry.row.depth = depth)) = [] := by
      rw [List.filter_eq_nil_iff]
      intro entry hentry
      have := hdeeper entry hentry
      simp only [decide_eq_true_eq]
      omega
    rw [List.filter_append, List.filter_cons, if_pos (by simpa using hdepth), hinner, ih,
      List.singleton_append]

/-- Each entry shows the type of its part. -/
theorem typed (h : Blocks s depth firsts entries) {entry : OutlineEntry}
    (hentry : entry ∈ entries) : entry.row.type = entry.part.text := by
  induction h with
  | nil => cases hentry
  | cons _ hblock _ ih =>
    rcases List.mem_append.mp hentry with hentry | hentry
    · exact hblock.typed entry hentry
    · exact ih hentry

/-- Each entry ends within the first one of a block. -/
theorem exists_stop_le (h : Blocks s depth firsts entries) {entry : OutlineEntry}
    (hentry : entry ∈ entries) : ∃ first ∈ firsts, entry.row.stop ≤ first.row.stop := by
  induction h with
  | nil => cases hentry
  | cons _ hblock _ ih =>
    rcases List.mem_append.mp hentry with hentry | hentry
    · exact ⟨_, List.mem_cons_self, hblock.within entry hentry⟩
    · obtain ⟨first, hfirst, hstop⟩ := ih hentry
      exact ⟨first, List.mem_cons_of_mem _ hfirst, hstop⟩

/-- Blocks of one depth before something shallow start shallow themselves. -/
theorem shallow_append (h : Blocks s depth firsts entries) (hrest : Shallow depth rest) :
    Shallow depth (entries ++ rest) := by
  cases h with
  | nil => exact hrest
  | cons hdepth hblock _ =>
    obtain ⟨inner, rfl, _⟩ := hblock.head
    intro entry hentry
    cases hentry
    exact hdepth.le

/-- Blocks are nested before whatever starts no deeper. -/
theorem nested (h : Blocks s depth firsts entries) (hshallow : Shallow depth rest)
    (hrest : Nested s rest) : Nested s (entries ++ rest) := by
  induction h with
  | nil => exact hrest
  | cons hdepth hblock hblocks ih =>
    rw [List.append_assoc]
    refine hblock.nested _ ?_ ih
    rw [hdepth]
    exact hblocks.shallow_append hshallow

end Blocks

/-- A part and blocks one level deeper make up a block, if the part encloses their first entries and
these end within it. -/
theorem Block.of_inside {s : Selections} {first : OutlineEntry} {inside entries : List OutlineEntry}
    (hblocks : Blocks s (first.row.depth + 1) inside entries)
    (htype : first.row.type = first.part.text)
    (hwithin : ∀ entry ∈ inside, entry.row.stop ≤ first.row.stop)
    (hencloses : Encloses s first.part first.row inside) : Block s first (first :: entries) := by
  have hdeeper : ∀ entry ∈ entries, first.row.depth < entry.row.depth :=
    fun entry hentry => hblocks.depth_le hentry
  refine ⟨⟨entries, rfl, hdeeper⟩, ?_, ?_, ?_⟩
  · exact List.forall_mem_cons.mpr ⟨htype, fun entry hentry => hblocks.typed hentry⟩
  · refine List.forall_mem_cons.mpr ⟨Nat.le_refl _, fun entry hentry => ?_⟩
    obtain ⟨outer, houter, hstop⟩ := hblocks.exists_stop_le hentry
    exact hstop.trans (hwithin outer houter)
  · intro rest hshallow hrest
    rw [List.cons_append, nested_cons_iff]
    refine ⟨?_, hblocks.nested (fun entry hentry => (hshallow entry hentry).trans (by omega)) hrest⟩
    rw [first.inside_append hdeeper hshallow, hblocks.filter_depth]
    exact hencloses

namespace Shape

/-- A shape is laid out wherever it has a size: the rows are those of a block that starts with its
own. -/
def LaidOut (s : Selections) (shape : Shape) : Prop :=
  ∀ path offset depth size, shape.sizeAt s path = .ok size →
    ∃ entries, shape.outlineAt s path offset depth = .ok (size, entries.map OutlineEntry.row) ∧
      Block s (shape.entryAt path offset size depth) entries

/-- Rows are made that tile a span by parts: they are those of blocks at a depth. -/
def TiledBy (s : Selections) (parts : List (Shape × String)) (offset size depth : Nat)
    (outlined : Except CodecError (List OutlineRow)) : Prop :=
  ∃ inside entries, outlined = .ok (entries.map OutlineEntry.row) ∧
    Blocks s depth inside entries ∧ Tiles parts offset size inside

variable {s : Selections} {path : String} {size total depth : Nat}

/-- No rows tile nothing. -/
theorem tiledBy_nil (offset : Nat) : TiledBy s [] offset 0 depth (.ok []) :=
  ⟨[], [], rfl, .nil, .nil offset⟩

/-- The rows of a block go before those from its end on. -/
theorem TiledBy.block_append {offset one : Nat} {shape : Shape} {parts : List (Shape × String)}
    {block : List OutlineEntry} {outlined : Except CodecError (List OutlineRow)}
    (hblock : Block s (shape.entryAt path offset one depth) block)
    (hrest : TiledBy s parts (offset + one) size depth outlined) :
    TiledBy s ((shape, path) :: parts) offset (one + size) depth (do
      let others ← outlined
      return block.map OutlineEntry.row ++ others) := by
  obtain ⟨inside, entries, rfl, hblocks, htiles⟩ := hrest
  refine ⟨_, block ++ entries, ?_, .cons rfl hblock hblocks, htiles.cons⟩
  rw [List.map_append]
  rfl

/-- The rows of a shape go before those from its end on. -/
theorem LaidOut.tiledBy_cons {offset one : Nat} {shape : Shape} {parts : List (Shape × String)}
    (hshape : shape.LaidOut s) (rest : Nat → Except CodecError (List OutlineRow))
    (hone : shape.sizeAt s path = .ok one)
    (hrest : TiledBy s parts (offset + one) size depth (rest (offset + one))) :
    TiledBy s ((shape, path) :: parts) offset (one + size) depth (do
      let (one, rows) ← shape.outlineAt s path offset depth
      let others ← rest (offset + one)
      return rows ++ others) := by
  obtain ⟨block, houtline, hblock⟩ := hshape path offset depth one hone
  rw [houtline]
  exact hrest.block_append hblock

/-- The rows of one shape tile what it takes up. -/
theorem LaidOut.tiledBy_singleton {offset : Nat} {shape : Shape} (hshape : shape.LaidOut s)
    (hsize : shape.sizeAt s path = .ok size) :
    TiledBy s [(shape, path)] offset size depth (do
      let (_, rows) ← shape.outlineAt s path offset depth
      return rows) := by
  obtain ⟨block, houtline, hblock⟩ := hshape path offset depth size hsize
  rw [houtline]
  exact ⟨_, block, rfl, .singleton hblock, (Tiles.nil _).cons⟩

/-- A scalar is a block of its own. -/
theorem block_scalar (kind : ScalarKind) (offset : Nat) :
    Block s ((scalar kind).entryAt path offset size depth)
      [(scalar kind).entryAt path offset size depth] :=
  .of_inside .nil rfl (fun _ h => nomatch h) (.scalar kind _)

/-- A shape that is tiled is laid out if its rows are its own and then those that tile it by its
parts. -/
theorem LaidOut.of_tiledBy {shape : Shape} (htiled : shape.tiled = true)
    (hparts : ∀ path offset depth size, shape.sizeAt s path = .ok size → ∃ outlined,
      TiledBy s (shape.partsAt s path) offset size (depth + 1) outlined ∧
        shape.outlineAt s path offset depth = outlined >>= fun rows =>
          .ok (size, (shape.entryAt path offset size depth).row :: rows)) :
    shape.LaidOut s := by
  intro path offset depth size hsize
  obtain ⟨_, ⟨inside, entries, rfl, hblocks, htiles⟩, houtline⟩ :=
    hparts path offset depth size hsize
  exact ⟨_ :: entries, houtline,
    .of_inside hblocks rfl (fun entry hentry => htiles.stop_le hentry) (.tiled htiled htiles)⟩

/-- Fields that have a size are laid out one after another. -/
theorem tiledBy_outlineFields {fields : List (Named Shape)}
    (hfields : ∀ field ∈ fields, field.item.LaidOut s) {stop : Nat}
    (hsize : sizeFields s path total fields = .ok stop) (offset : Nat) :
    ∃ size, total + size = stop ∧
      TiledBy s (fields.map fun field => (field.item, Path.child path field.name)) offset size depth
        (outlineFields s path offset depth fields) := by
  induction fields generalizing total offset with
  | nil =>
    cases hsize
    exact ⟨0, rfl, tiledBy_nil offset⟩
  | cons field fields ih =>
    obtain ⟨name, shape⟩ := field
    rw [List.forall_mem_cons] at hfields
    rw [sizeFields] at hsize
    obtain ⟨one, hone, -, hsize⟩ := add_bind_eq_ok_iff.mp hsize
    obtain ⟨size, hstop, hrest⟩ := ih hfields.2 hsize (offset + one)
    refine ⟨one + size, by omega, ?_⟩
    have hshape : shape.LaidOut s := hfields.1
    rw [List.map_cons, outlineFields]
    exact hshape.tiledBy_cons (fun at_ => outlineFields s path at_ depth fields) hone hrest

/-- Elements that have a size are laid out one after another. -/
theorem tiledBy_outlineElements {elem : Shape} (helem : elem.LaidOut s) {count index stop : Nat}
    (hsize : sumSizes path (fun i => elem.sizeAt s (Path.element path i)) count index total =
      .ok stop) (offset : Nat) :
    ∃ size, total + size = stop ∧
      TiledBy s ((List.range' index count).map fun i => (elem, Path.element path i)) offset size depth
        (outlineElements (fun i at_ => elem.outlineAt s (Path.element path i) at_ depth)
          count index offset) := by
  induction count generalizing index total offset with
  | zero =>
    cases hsize
    exact ⟨0, rfl, tiledBy_nil offset⟩
  | succ count ih =>
    rw [sumSizes] at hsize
    obtain ⟨one, hone, -, hsize⟩ := add_bind_eq_ok_iff.mp hsize
    obtain ⟨size, hstop, hrest⟩ := ih hsize (offset + one)
    refine ⟨one + size, by omega, ?_⟩
    rw [outlineElements]
    exact helem.tiledBy_cons (outlineElements _ count (index + 1)) hone hrest

/-- The rows of what a variant may carry; it follows the tag. -/
def outlinePayload (s : Selections) (path name : String) (offset depth : Nat) :
    Option Shape → Except CodecError (List OutlineRow)
  | none => .ok []
  | some shape => do
    let (_, rows) ← shape.outlineAt s (Path.child path name) (offset + 1) depth
    return rows

/-- The variant whose payload is laid out is looked up by its name. -/
theorem outlineVariant_eq (name : String) (offset : Nat) (variants : List (Variant Shape)) :
    outlineVariant s path name offset depth variants =
      ((Shape.enum variants).variantNamed? name).elim (.ok []) fun variant =>
        outlinePayload s path variant.name offset depth variant.payload := by
  refine search_eq_find? (outlineVariant s path name offset depth) rfl (fun variant rest => ?_) variants
  obtain ⟨other, tag, declared⟩ := variant
  cases declared <;> rfl

/-- The member to lay out is looked up by its name. -/
theorem outlineMember_eq (name : String) (offset : Nat) (members : List (Named Shape)) :
    outlineMember s path name offset depth members =
      ((Shape.union members).memberNamed? name).elim (.ok []) fun member => do
        let (_, rows) ← member.item.outlineAt s (Path.child path member.name) offset depth
        return rows :=
  search_eq_find? (outlineMember s path name offset depth) rfl (fun ⟨_, _⟩ _ => rfl) members

/-- What a variant carries, if anything, is laid out behind the tag. -/
theorem tiledBy_outlinePayload {name : String} {payload : Option Shape}
    (hpayload : ∀ shape, payload = some shape → shape.LaidOut s)
    (hsize : sizePayload s path name payload = .ok size) (offset : Nat) :
    TiledBy s (payload.map fun shape => (shape, Path.child path name)).toList (offset + 1) size depth
      (outlinePayload s path name offset depth payload) := by
  cases payload with
  | none =>
    cases hsize
    exact tiledBy_nil (offset + 1)
  | some shape => exact (hpayload shape rfl).tiledBy_singleton hsize

/-- A scalar is laid out as one row. -/
theorem laidOut_scalar (kind : ScalarKind) : (scalar kind).LaidOut s := by
  intro path offset depth size hsize
  refine ⟨_, ?_, block_scalar kind offset⟩
  rw [outlineAt, hsize]
  rfl

/-- An array that is tiled by its elements has the sum of their sizes. -/
theorem sizeAt_array_of_tiled {elem : Shape} {count : UInt64}
    (htiled : (array elem count).tiled = true) :
    (array elem count).sizeAt s path =
      sumSizes path (fun i => elem.sizeAt s (Path.element path i)) count.toNat 0 0 := by
  by_cases hcount : count = 0
  · subst hcount
    rw [sizeAt, if_pos rfl]
    rfl
  · have helem : ¬elem.isStatic = true := by simpa [tiled, hcount] using htiled
    rw [sizeAt, if_neg hcount, if_neg helem]

/-- An array that has static elements, and any, is laid out by one that stands for all. -/
theorem laidOut_array_of_sampled {elem : Shape} {count : UInt64} (helem : elem.LaidOut s)
    (hcount : 0 < count) (hstatic : elem.isStatic = true) : (array elem count).LaidOut s := by
  intro path offset depth size hsize
  have hpos : 0 < count.toNat := hcount
  have hone := hsize
  rw [sizeAt, if_neg (UInt64.pos_iff_ne_zero.mp hcount), if_pos hstatic, bind_eq_ok_iff] at hone
  obtain ⟨one, hone, htotal⟩ := hone
  obtain ⟨rfl, -⟩ := (measures_checkedSize path _ size).mp htotal
  obtain ⟨block, houtline, hblock⟩ :=
    helem (Path.anyElement path) offset (depth + 1) one (sizeAt_of_isStatic hstatic hone)
  refine ⟨(array elem count).entryAt path offset (one * count.toNat) depth :: block, ?_,
    .of_inside (.singleton hblock) rfl ?_ (.sampled hcount hstatic rfl rfl rfl)⟩
  · rw [outlineAt, hsize]
    change (if _ then _ else _) = _
    rw [if_pos ⟨hcount, hstatic⟩, houtline]
    rfl
  · intro entry hentry
    obtain rfl := List.mem_singleton.mp hentry
    exact Nat.add_le_add_left (Nat.le_mul_of_pos_right one hpos) offset

/-- Any other array is laid out by its elements. -/
theorem laidOut_array_of_tiled {elem : Shape} {count : UInt64} (helem : elem.LaidOut s)
    (hsampled : ¬(0 < count ∧ elem.isStatic = true)) : (array elem count).LaidOut s := by
  have htiled : (array elem count).tiled = true := by
    rw [UInt64.pos_iff_ne_zero] at hsampled
    rw [tiled]
    grind
  refine .of_tiledBy htiled fun path offset depth size hsize => ?_
  have htotal := hsize
  rw [sizeAt_array_of_tiled htiled] at htotal
  obtain ⟨sum, hsum, hrows⟩ := tiledBy_outlineElements helem htotal offset
  obtain rfl : sum = size := by omega
  rw [← List.range_eq_range'] at hrows
  refine ⟨_, hrows, ?_⟩
  rw [outlineAt, hsize]
  change (if _ then _ else _) = _
  rw [if_neg hsampled]
  rfl

/-- A struct is laid out by its fields. -/
theorem laidOut_struct {fields : List (Named Shape)}
    (hfields : ∀ field ∈ fields, field.item.LaidOut s) : (struct fields).LaidOut s := by
  refine .of_tiledBy rfl fun path offset depth size hsize => ?_
  have htotal := hsize
  rw [sizeAt] at htotal
  obtain ⟨sum, hsum, hrows⟩ := tiledBy_outlineFields hfields htotal offset
  obtain rfl : sum = size := by omega
  refine ⟨_, hrows, ?_⟩
  rw [outlineAt, hsize]
  rfl

/-- An enum is laid out by its tag and the payload of the variant that is selected. -/
theorem laidOut_enum {variants : List (Variant Shape)}
    (hvariants : ∀ variant ∈ variants, ∀ shape, variant.payload = some shape → shape.LaidOut s) :
    (enum variants).LaidOut s := by
  refine .of_tiledBy rfl fun path offset depth size hsize => ?_
  obtain ⟨variant, hselected, hfound⟩ := exists_variant_of_sizeAt hsize
  have hparts := hsize
  rw [sizeAt_enum hselected hfound, bind_eq_ok_iff] at hparts
  obtain ⟨one, hone, htotal⟩ := hparts
  obtain ⟨rfl, -⟩ := (measures_checkedSize path _ size).mp htotal
  have hname : s.forSize path = .ok variant.name := forSize_eq_ok.mpr hselected
  refine ⟨do
      let others ← outlineVariant s path variant.name offset (depth + 1) variants
      return ([(scalar .u8).entryAt (Path.child path "<tag>") offset 1 (depth + 1)].map
        OutlineEntry.row) ++ others, ?_, ?_⟩
  · rw [partsAt, hselected, Option.bind_some, hfound, Option.bind_some, outlineVariant_eq, hfound,
      Nat.add_comm one]
    exact (tiledBy_outlinePayload (hvariants variant (List.mem_of_find?_eq_some hfound)) hone
      offset).block_append (block_scalar .u8 offset)
  · rw [outlineAt, hsize, hname, bind_assoc]
    rfl

/-- A union is laid out by the member that is selected. -/
theorem laidOut_union {members : List (Named Shape)}
    (hmembers : ∀ member ∈ members, member.item.LaidOut s) : (union members).LaidOut s := by
  refine .of_tiledBy rfl fun path offset depth size hsize => ?_
  obtain ⟨member, hselected, hfound⟩ := exists_member_of_sizeAt hsize
  have hmember := hsize
  rw [sizeAt_union hselected hfound] at hmember
  have hname : s.forSize path = .ok member.name := forSize_eq_ok.mpr hselected
  refine ⟨outlineMember s path member.name offset (depth + 1) members, ?_, ?_⟩
  · rw [partsAt, hselected, Option.bind_some, hfound, outlineMember_eq, hfound]
    exact (hmembers member (mem_of_memberNamed? hfound)).tiledBy_singleton hmember
  · rw [outlineAt, hsize, hname]
    rfl

/-- Every shape is laid out. -/
theorem laidOut (shape : Shape) : shape.LaidOut s := by
  induction shape with
  | scalar kind => exact laidOut_scalar kind
  | array elem count ih =>
    by_cases hsampled : 0 < count ∧ elem.isStatic = true
    · exact laidOut_array_of_sampled ih hsampled.1 hsampled.2
    · exact laidOut_array_of_tiled ih hsampled
  | struct fields ih => exact laidOut_struct ih
  | enum variants ih => exact laidOut_enum ih
  | union members ih => exact laidOut_union ih

/-- What has no size has no layout table either, for the same reason. -/
theorem outlineAt_of_error {shape : Shape} {fault : CodecError} (offset depth : Nat)
    (hsize : shape.sizeAt s path = .error fault) :
    shape.outlineAt s path offset depth = .error fault := by
  cases shape <;> rw [outlineAt, hsize] <;> rfl

/-- The layout table of a shape tiles it. There is a table exactly if there is a size, and otherwise
the same fault. The first row is that of the whole, and every row shows the type of a part and ends
below the limit. Directly inside a row, that is one level deeper and before the next row that is not
deeper, are those of its parts: they begin where it does, each where the one before it ends, and have
its size together. Only a scalar or a tag has none, and an array of static elements has the one that
stands for all of them.

The walk over a shape adds the size of a row to its offset and nothing else, so every sum that it
computes is where a row ends, and none of them reaches the limit. -/
theorem outline_tiles (shape : Shape) (s : Selections) :
    (∀ fault, shape.outline s = .error fault ↔ shape.size s = .error fault) ∧
    ∀ size, shape.size s = .ok size → ∃ entries,
      shape.outline s = .ok (entries.map OutlineEntry.row) ∧
      entries.head? = some ⟨shape, ⟨Path.root, shape.text, 0, size, 0⟩⟩ ∧
      (∀ entry ∈ entries, entry.row.type = entry.part.text ∧ entry.row.stop < sizeLimit) ∧
      ∀ entry after, entry :: after <:+ entries →
        Encloses s entry.part entry.row (entry.inside after) := by
  refine ⟨fun fault => ?_, fun size hsize => ?_⟩
  · rw [outline, map_eq_error_iff]
    refine ⟨fun houtline => ?_, outlineAt_of_error 0 0⟩
    cases hsize : shape.size s with
    | error other =>
      rw [outlineAt_of_error 0 0 hsize] at houtline
      cases houtline
      rfl
    | ok size =>
      obtain ⟨entries, hrows, _⟩ := laidOut shape Path.root 0 0 size hsize
      rw [hrows] at houtline
      cases houtline
  · obtain ⟨entries, hrows, hblock⟩ := laidOut shape Path.root 0 0 size hsize
    obtain ⟨inner, hentries, _⟩ := hblock.head
    have hlimit : size < sizeLimit := ((exact_sizeAt shape Path.root).eq_ok_iff.mp hsize).2.2
    refine ⟨entries, ?_, ?_, fun entry hentry => ⟨hblock.typed entry hentry, ?_⟩, ?_⟩
    · rw [outline, hrows]
      rfl
    · rw [hentries]
      rfl
    · have hstop : entry.row.stop ≤ 0 + size := hblock.within entry hentry
      omega
    · have hnested := hblock.nested [] (fun _ h => nomatch h) (fun _ _ h => by simp at h)
      rwa [List.append_nil] at hnested

/-- A message of selected parts and of numbers, which take up 18 bytes, has a table that tiles it. -/
theorem outline_tiles_message :
    let s : Selections := .ofList [("kind", "Pair"), ("body", "bytes"), ("log[1]", "Value"),
      ("log[0]", "None")]
    let message : Shape := .struct [⟨"kind", Samples.choice⟩, ⟨"body", Samples.overlay⟩,
      ⟨"log", .array Samples.choice 2⟩, ⟨"sum", .array (.scalar .u8) 3⟩]
    message.size s = .ok 18 ∧ ∃ entries, message.outline s = .ok (entries.map OutlineEntry.row) ∧
      entries.length = 17 ∧
      ∀ entry after, entry :: after <:+ entries →
        Encloses s entry.part entry.row (entry.inside after) := by
  intro s message
  have hsize : message.size s = .ok 18 := by decide
  obtain ⟨entries, hrows, _, _, htiles⟩ := (outline_tiles message s).2 18 hsize
  have hlength : (message.outline s).map List.length = .ok 17 := by decide
  rw [hrows, Except.map, Except.ok.injEq, List.length_map] at hlength
  exact ⟨hsize, entries, hrows, hlength, htiles⟩

end Shape

end WireParity
