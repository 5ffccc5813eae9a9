import WireParity.Proofs.Codec.Decoding
import WireParity.Proofs.Shape.Extent

/-!
# Decoding static shapes

A static shape is a sequence of scalars, the same whatever is selected and whatever the bytes are.
`leavesAt` lists them with their paths in the order in which they lie. Reading the shape takes the
bytes of one leaf after another, so all that can go wrong is that the bytes end before some leaf
does, and the numbers in the error are those of the first such leaf.

The walk over a shape and the walk over its leaves are equated as functions from bytes to what is
left of them. Both are chains of steps that stop at the first fault, so leaves put one after another
are taken one after another, and an array of elements without bytes takes none however long it is.
-/

namespace WireParity

namespace Samples

/-- A static shape, as no choice is ever made in it, with four numbers to read. -/
def plot : Shape := .struct [⟨"steps", .array choice 0⟩, ⟨"points", .array point 2⟩]

end Samples

namespace Shape

/-- A scalar in a shape: where it is, and of which kind. -/
structure Leaf where
  path : String
  kind : ScalarKind
deriving Repr, DecidableEq

mutual

/-- The scalars of a static shape at a path, in the order in which they lie. For an enum or a union
none are listed, as what they hold has to be chosen. -/
def leavesAt : Shape → String → List Leaf
  | scalar kind, path => [⟨path, kind⟩]
  | array elem count, path =>
    (List.range count.toNat).flatMap fun index => elem.leavesAt (Path.element path index)
  | struct fields, path => leavesOfFields path fields
  | enum _, _ => []
  | union _, _ => []

/-- The scalars of fields. -/
def leavesOfFields (path : String) : List (Named Shape) → List Leaf
  | [] => []
  | ⟨name, shape⟩ :: rest => shape.leavesAt (Path.child path name) ++ leavesOfFields path rest

end

namespace Leaf

/-- How many bytes leaves take together. -/
def total (leaves : List Leaf) : Nat := (leaves.map fun leaf => leaf.kind.width).sum

/-- A leaf is the first of some that a number of bytes does not reach to: those before it have all
their bytes, and the bytes that are left are too few for it. -/
def FirstShort (length : Nat) (leaves : List Leaf) (leaf : Leaf) (available : Nat) : Prop :=
  ∃ before after, leaves = before ++ leaf :: after ∧ total before + available = length ∧
    available < leaf.kind.width

/-- Takes the bytes of leaves from the front, and hands on the rest. -/
def take : List Leaf → Bytes → Except CodecError Bytes
  | [], bytes => .ok bytes
  | leaf :: rest, bytes =>
    takeFront leaf.path leaf.kind.width bytes >>= fun parts => take rest parts.2

variable {leaves : List Leaf} {leaf : Leaf} {bytes rest : Bytes}

/-- Leaves take what the first takes and what the others take. -/
theorem total_cons (leaf : Leaf) (leaves : List Leaf) :
    total (leaf :: leaves) = leaf.kind.width + total leaves := by
  rw [total, List.map_cons, List.sum_cons, total]

/-- Leaves put one after another take what both take. -/
theorem total_append (front back : List Leaf) :
    total (front ++ back) = total front + total back := by
  rw [total, List.map_append, List.sum_append, total, total]

/-- Leaves put one after another are taken one after another. -/
theorem take_append (front back : List Leaf) (bytes : Bytes) :
    take (front ++ back) bytes = take front bytes >>= take back := by
  induction front generalizing bytes with
  | nil => rfl
  | cons leaf front ih =>
    rw [List.cons_append, take, take, bind_assoc]
    simp only [ih]

/-- Leaves are taken where there are bytes enough for them, and the others are left. -/
theorem take_eq_ok_iff : take leaves bytes = .ok rest ↔
    total leaves ≤ bytes.length ∧ rest = bytes.drop (total leaves) := by
  induction leaves generalizing bytes with
  | nil => simp [take, total, eq_comm]
  | cons leaf leaves ih =>
    rw [take, bind_eq_ok_iff, total_cons]
    refine ⟨?_, ?_⟩
    · intro h
      obtain ⟨⟨front, back⟩, hfront, hback⟩ := h
      obtain ⟨rfl, hwidth⟩ := takeFront_eq_ok.mp hfront
      obtain ⟨hlength, hrest⟩ : total leaves ≤ back.length ∧ rest = back.drop (total leaves) :=
        ih.mp hback
      refine ⟨?_, ?_⟩
      · rw [List.length_append, hwidth]
        omega
      · rw [← hwidth, ← List.drop_drop, List.drop_left, hrest]
    · intro h
      obtain ⟨hlength, rfl⟩ := h
      have hwidth : (bytes.take leaf.kind.width).length = leaf.kind.width :=
        List.length_take_of_le (by omega)
      refine ⟨(bytes.take leaf.kind.width, bytes.drop leaf.kind.width),
        takeFront_eq_ok.mpr ⟨(List.take_append_drop ..).symm, hwidth⟩, ih.mpr ⟨?_, ?_⟩⟩
      · rw [List.length_drop]
        omega
      · rw [List.drop_drop]

/-- The first leaf that is not reached is the first of all, or the first of the others after one
that has its bytes. -/
theorem firstShort_cons {first : Leaf} {length available : Nat} :
    FirstShort length (first :: leaves) leaf available ↔
      (leaf = first ∧ available = length ∧ length < first.kind.width) ∨
      first.kind.width ≤ length ∧ FirstShort (length - first.kind.width) leaves leaf available := by
  refine ⟨?_, ?_⟩
  · intro h
    obtain ⟨before, after, hparts, hlength, hshort⟩ := h
    cases before with
    | nil =>
      cases hparts
      rw [total, List.map_nil, List.sum_nil, Nat.zero_add] at hlength
      exact .inl ⟨rfl, hlength, hlength ▸ hshort⟩
    | cons earlier before =>
      cases hparts
      rw [total_cons] at hlength
      exact .inr ⟨by omega, before, after, rfl, by omega, hshort⟩
  · intro h
    rcases h with ⟨rfl, rfl, hshort⟩ | ⟨hfirst, before, after, rfl, hlength, hshort⟩
    · exact ⟨[], leaves, rfl, Nat.zero_add _, hshort⟩
    · refine ⟨first :: before, after, rfl, ?_, hshort⟩
      rw [total_cons]
      omega

/-- Leaves are refused for the first that the bytes do not reach to. -/
theorem take_eq_error_iff {error : CodecError} : take leaves bytes = .error error ↔
    ∃ leaf available, FirstShort bytes.length leaves leaf available ∧
      error = ⟨leaf.path, .truncatedInput leaf.kind.width available⟩ := by
  induction leaves generalizing bytes with
  | nil => simp [take, FirstShort]
  | cons leaf leaves ih =>
    rw [take, bind_eq_error_iff]
    simp only [takeFront_eq_error, ih, firstShort_cons]
    refine ⟨?_, ?_⟩
    · intro h
      rcases h with ⟨hshort, rfl⟩ | ⟨⟨front, back⟩, hfront, other, available, hother, rfl⟩
      · exact ⟨leaf, bytes.length, .inl ⟨rfl, rfl, hshort⟩, rfl⟩
      · obtain ⟨rfl, hwidth⟩ := takeFront_eq_ok.mp hfront
        refine ⟨other, available, .inr ⟨?_, ?_⟩, rfl⟩
        · rw [List.length_append]
          omega
        · rw [List.length_append, hwidth, Nat.add_sub_cancel_left]
          exact hother
    · intro h
      obtain ⟨other, available, ⟨rfl, rfl, hshort⟩ | ⟨hwidth, hother⟩, rfl⟩ := h
      · exact .inl ⟨hshort, rfl⟩
      · refine .inr ⟨(bytes.take leaf.kind.width, bytes.drop leaf.kind.width),
          takeFront_eq_ok.mpr ⟨(List.take_append_drop ..).symm, List.length_take_of_le hwidth⟩,
          other, available, ?_, rfl⟩
        rw [List.length_drop]
        exact hother

end Leaf

/-- A step after which only what is left is looked at may hand on no more than that. -/
theorem map_snd_bind {α β : Type} {first : Except CodecError (α × Bytes)}
    {next : α × Bytes → Except CodecError (β × Bytes)} {rest : Bytes → Except CodecError Bytes}
    (hnext : ∀ part, (next part).map Prod.snd = rest part.2) :
    (first >>= next).map Prod.snd = first.map Prod.snd >>= rest := by
  cases first with
  | error fault => rfl
  | ok part => exact hnext part

/-- What is left does not depend on what is made of the part that was read. -/
theorem map_snd_wrap {α β : Type} (first : Except CodecError (α × Bytes)) (wrap : α → β) :
    (first >>= fun part => .ok (wrap part.1, part.2)).map Prod.snd = first.map Prod.snd := by
  cases first with
  | error fault => rfl
  | ok part => rfl

variable {s s' : Selections} {path : String} {bytes : Bytes}

section Reading

/-- Items that take leaves each take the leaves of all, one after another. -/
theorem map_readItems {read : Nat → Bytes → Except CodecError (Value × Bytes)}
    {leaves : Nat → List Leaf}
    (hread : ∀ index bytes, (read index bytes).map Prod.snd = Leaf.take (leaves index) bytes)
    (count index : Nat) (bytes : Bytes) :
    (readItems read count index bytes).map Prod.snd =
      Leaf.take ((List.range' index count).flatMap leaves) bytes := by
  induction count generalizing index bytes with
  | zero => rfl
  | succ count ih =>
    rw [readItems, List.range'_succ, List.flatMap_cons, Leaf.take_append, ← hread]
    refine map_snd_bind fun part => ?_
    rw [← ih]
    exact map_snd_wrap _ fun items => part.1 :: items

/-- Fields that take leaves each take the leaves of all, one after another. -/
theorem map_decodeFields {fields : List (Named Shape)}
    (hfields : ∀ field ∈ fields, ∀ path bytes, (field.item.decodeAt s path bytes).map Prod.snd =
      Leaf.take (field.item.leavesAt path) bytes) :
    (decodeFields s path fields bytes).map Prod.snd =
      Leaf.take (leavesOfFields path fields) bytes := by
  induction fields generalizing bytes with
  | nil => rfl
  | cons field fields ih =>
    obtain ⟨name, shape⟩ := field
    rw [List.forall_mem_cons] at hfields
    rw [decodeFields, leavesOfFields, Leaf.take_append, ← hfields.1]
    refine map_snd_bind fun part => ?_
    rw [← ih hfields.2]
    exact map_snd_wrap _ fun values : List (Named Value) => ⟨name, part.1⟩ :: values

/-- Reading a static shape takes its leaves. -/
theorem map_decodeAt {shape : Shape} (hstatic : shape.isStatic = true) (path : String)
    (bytes : Bytes) :
    (shape.decodeAt s path bytes).map Prod.snd = Leaf.take (shape.leavesAt path) bytes := by
  induction shape generalizing path bytes with
  | scalar kind =>
    rw [decodeAt, leavesAt, Leaf.take]
    cases takeFront path kind.width bytes with
    | error fault => rfl
    | ok parts => rfl
  | array elem count ih =>
    rw [decodeAt, leavesAt, List.range_eq_range']
    by_cases hcount : count = 0
    · -- Of an element that is never read, nothing is known.
      subst hcount
      rfl
    · have helem := isStatic_of_array hstatic hcount
      rw [← map_readItems (fun index bytes => ih helem (Path.element path index) bytes)]
      exact map_snd_wrap _ Value.array
  | struct fields ih =>
    rw [isStatic, fieldsStatic_eq_true] at hstatic
    rw [decodeAt, leavesAt,
      ← map_decodeFields fun field hfield => ih field hfield (hstatic field hfield)]
    exact map_snd_wrap _ Value.struct
  | enum variants => cases hstatic
  | union members => cases hstatic

end Reading

section Sizing

/-- Leaves listed index by index take what those of each index take. -/
theorem Leaf.total_flatMap_range (leaves : Nat → List Leaf) (count : Nat) :
    total ((List.range count).flatMap leaves) =
      ∑ index ∈ Finset.range count, total (leaves index) := by
  induction count with
  | zero => rfl
  | succ count ih =>
    rw [List.range_succ, List.flatMap_append, total_append, ih, Finset.sum_range_succ,
      List.flatMap_singleton]

/-- The leaves of fields take what the fields do, if it is so for each field. -/
theorem total_leavesOfFields {fields : List (Named Shape)}
    (hfields : ∀ field ∈ fields, ∀ path,
      Leaf.total (field.item.leavesAt path) = field.item.extentAt s path) :
    Leaf.total (leavesOfFields path fields) = extentFields s path fields := by
  induction fields with
  | nil => rfl
  | cons field fields ih =>
    rw [List.forall_mem_cons] at hfields
    rw [leavesOfFields, extentFields, Leaf.total_append, hfields.1, ih hfields.2]

/-- The leaves of a static shape take as many bytes as the shape does. -/
theorem total_leavesAt {shape : Shape} (hstatic : shape.isStatic = true) (path : String) :
    Leaf.total (shape.leavesAt path) = shape.extentAt s path := by
  induction shape generalizing path with
  | scalar kind => rfl
  | array elem count ih =>
    rw [leavesAt, extentAt, Leaf.total_flatMap_range]
    by_cases hcount : count = 0
    · subst hcount
      rfl
    · have helem := isStatic_of_array hstatic hcount
      exact Finset.sum_congr rfl fun index _ => ih helem (Path.element path index)
  | struct fields ih =>
    rw [isStatic, fieldsStatic_eq_true] at hstatic
    rw [leavesAt, extentAt]
    exact total_leavesOfFields fun field hfield => ih field hfield (hstatic field hfield)
  | enum variants => cases hstatic
  | union members => cases hstatic

/-- A static shape has a size exactly if its leaves take fewer bytes than the limit. -/
theorem measures_leavesAt {shape : Shape} (hstatic : shape.isStatic = true) :
    Measures (shape.sizeAt s path) (Leaf.total (shape.leavesAt path)) := by
  rw [total_leavesAt hstatic path]
  exact (exact_sizeAt shape path).measures (resolved_of_isStatic hstatic)

/-- Fields are summed alike under all selections, if each is sized alike. -/
theorem sizeFields_congr {fields : List (Named Shape)}
    (hfields : ∀ field ∈ fields, ∀ path, field.item.sizeAt s path = field.item.sizeAt s' path)
    (total : Nat) : sizeFields s path total fields = sizeFields s' path total fields := by
  induction fields generalizing total with
  | nil => rfl
  | cons field fields ih =>
    rw [List.forall_mem_cons] at hfields
    rw [sizeFields, sizeFields, hfields.1]
    simp only [ih hfields.2]

/-- Selections play no part in sizing a static shape, nor in refusing to. -/
theorem sizeAt_selections {shape : Shape} (hstatic : shape.isStatic = true) (path : String) :
    shape.sizeAt s path = shape.sizeAt s' path := by
  induction shape generalizing path with
  | scalar kind => rfl
  | array elem count ih =>
    rw [sizeAt, sizeAt]
    by_cases hcount : count = 0
    · rw [if_pos hcount, if_pos hcount]
    · have helem := isStatic_of_array hstatic hcount
      rw [if_neg hcount, if_neg hcount, if_pos helem, if_pos helem, ih helem]
  | struct fields ih =>
    rw [isStatic, fieldsStatic_eq_true] at hstatic
    rw [sizeAt, sizeAt]
    exact sizeFields_congr (fun field hfield => ih field hfield (hstatic field hfield)) 0
  | enum variants => cases hstatic
  | union members => cases hstatic

/-- A shape for which nothing has to be selected is static. -/
theorem isStatic_of_resolved {shape : Shape} (hresolved : shape.Resolved .empty path) :
    shape.isStatic = true := by
  induction shape generalizing path with
  | scalar kind => rfl
  | array elem count ih =>
    rw [resolved_array_iff] at hresolved
    rw [isStatic, Bool.or_eq_true, beq_iff_eq]
    by_cases hcount : count = 0
    · exact .inl hcount
    · have hpos : 0 < count.toNat := toNat_pos_of_ne_zero hcount
      exact .inr (ih (hresolved 0 hpos))
  | struct fields ih =>
    rw [resolved_struct_iff] at hresolved
    rw [isStatic, fieldsStatic_eq_true]
    exact fun field hfield => ih field hfield (hresolved field hfield)
  | enum variants =>
    obtain ⟨variant, hselected, _⟩ := exists_variant_of_resolved hresolved
    cases hselected
  | union members =>
    obtain ⟨member, hselected, _⟩ := exists_member_of_resolved hresolved
    cases hselected

end Sizing

/-- Decoding takes what reading does not leave, whatever value is made of it. -/
theorem exists_decodeFront_eq_ok_iff {shape : Shape} {count : Nat} :
    (∃ value, shape.decodeFront bytes s = .ok (value, count)) ↔
      ∃ rest, (shape.decodeAt s Path.root bytes).map Prod.snd = .ok rest ∧
        count = bytes.length - rest.length := by
  simp only [decodeFront, map_eq_ok_iff, Prod.mk.injEq]
  refine ⟨?_, ?_⟩
  · rintro ⟨_, ⟨value, rest⟩, hread, rfl, rfl⟩
    exact ⟨rest, ⟨(value, rest), hread, rfl⟩, rfl⟩
  · rintro ⟨_, ⟨⟨value, rest⟩, hread, rfl⟩, rfl⟩
    exact ⟨value, (value, rest), hread, rfl, rfl⟩

/-- A static shape has the same size, or the same fault, under all selections. Of fewer bytes than
the limit it is decoded exactly if it has a size for which there are bytes enough, and then it takes
as many. Otherwise it is refused for its first scalar that the bytes do not reach to, with the width
of that scalar and the number of bytes that those before it leave. A shape that is not static has no
size unless something is selected.

Memory is not limited here: an array of any number of elements without bytes is decoded to that many
values, also where no machine could hold them. -/
theorem decodeFront_of_isStatic (shape : Shape) (s s' : Selections) (bytes : Bytes)
    (hlength : bytes.length < sizeLimit) :
    (shape.isStatic = true →
      shape.size s = shape.size s' ∧
      (∀ count, (∃ value, shape.decodeFront bytes s = .ok (value, count)) ↔
        shape.size s = .ok count ∧ count ≤ bytes.length) ∧
      ∀ error, shape.decodeFront bytes s = .error error ↔
        ∃ leaf available, Leaf.FirstShort bytes.length (shape.leavesAt Path.root) leaf available ∧
          error = ⟨leaf.path, .truncatedInput leaf.kind.width available⟩) ∧
    (shape.isStatic = false → ∃ error, shape.size .empty = .error error) := by
  refine ⟨fun hstatic => ⟨sizeAt_selections hstatic Path.root, fun count => ?_, fun error => ?_⟩,
    fun hdynamic => ?_⟩
  · have hsize : Measures (shape.size s) (Leaf.total (shape.leavesAt Path.root)) :=
      measures_leavesAt hstatic
    rw [exists_decodeFront_eq_ok_iff, hsize count, map_decodeAt hstatic]
    simp only [Leaf.take_eq_ok_iff]
    refine ⟨?_, ?_⟩
    · rintro ⟨_, ⟨henough, rfl⟩, rfl⟩
      rw [List.length_drop]
      omega
    · rintro ⟨⟨rfl, _⟩, henough⟩
      refine ⟨_, ⟨henough, rfl⟩, ?_⟩
      rw [List.length_drop]
      omega
  · have hleaves := map_decodeAt (s := s) hstatic Path.root bytes
    rw [decodeFront, map_eq_error_iff, ← Leaf.take_eq_error_iff, ← hleaves, map_eq_error_iff]
  · cases hsize : shape.size .empty with
    | error fault => exact ⟨fault, rfl⟩
    | ok n =>
      have hresolved := (exact_sizeAt shape Path.root).resolved_of_ok n hsize
      rw [isStatic_of_resolved hresolved] at hdynamic
      cases hdynamic

/-- Of thirteen bytes the last of the four numbers is refused with one byte left for it, and of
seventeen all are read. A choice has no size by itself. -/
theorem decodeFront_of_isStatic_plot :
    Samples.plot.isStatic = true ∧ Samples.plot.size .empty = .ok 16 ∧
      Samples.plot.size .empty = Samples.plot.size (.root "Value") ∧
      (List.replicate 13 (0 : UInt8)).length < sizeLimit ∧
      Samples.plot.decodeFront (List.replicate 13 0) .empty =
        .error ⟨"points[1].y", .truncatedInput 4 1⟩ ∧
      (List.replicate 17 (0 : UInt8)).length < sizeLimit ∧
      (∃ value, Samples.plot.decodeFront (List.replicate 17 0) .empty = .ok (value, 16)) ∧
      Samples.choice.isStatic = false ∧ ∃ error, Samples.choice.size .empty = .error error := by
  have hstatic : Samples.plot.isStatic = true := by decide
  have hsize : Samples.plot.size .empty = .ok 16 := by decide
  have hshort : (List.replicate 13 (0 : UInt8)).length < sizeLimit := by decide
  have hlong : (List.replicate 17 (0 : UInt8)).length < sizeLimit := by decide
  obtain ⟨hsame, _, herror⟩ :=
    (decodeFront_of_isStatic Samples.plot .empty (.root "Value") _ hshort).1 hstatic
  obtain ⟨_, hcount, _⟩ :=
    (decodeFront_of_isStatic Samples.plot .empty (.root "Value") _ hlong).1 hstatic
  have hleaf : Leaf.FirstShort 13 (Samples.plot.leavesAt Path.root) ⟨"points[1].y", .i32⟩ 1 :=
    ⟨[⟨"points[0].x", .i32⟩, ⟨"points[0].y", .i32⟩, ⟨"points[1].x", .i32⟩], [], by decide,
      by decide, by decide⟩
  exact ⟨hstatic, hsize, hsame, hshort, (herror _).mpr ⟨_, 1, hleaf, rfl⟩, hlong,
    (hcount 16).mpr ⟨hsize, by decide⟩, rfl,
    (decodeFront_of_isStatic Samples.choice .empty .empty [] (by decide)).2 rfl⟩

end Shape

end WireParity
