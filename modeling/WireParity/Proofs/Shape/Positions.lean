import WireParity.Proofs.Shape.WellFormed
import WireParity.Samples
import Mathlib.Data.Set.Subsingleton
import Mathlib.Tactic.Push

/-!
# Positions in a shape and their paths

A position in a shape is told by numbers: at every composite on the way, which of its parts comes
next. The codec tells positions by text instead, which is what selections are keyed by. That text is
not escaped, so it can be read back only if names are there and hold neither of the two signs that
end a name. Then the text of a position begins, after that of the part before it, with the name or
number of the next part and nothing else, and the numbers can be read off it one by one.
-/

namespace WireParity

namespace Path

/-- A name that stands out in every path: it is not empty and has no dot and no opening bracket. -/
def Plain (name : String) : Prop := name ≠ "" ∧ '.' ∉ name.toList ∧ '[' ∉ name.toList

/-- A text begins with one path and then ends, or goes on with a dot or an opening bracket. -/
def Begins (path node : String) : Prop :=
  ∃ rest, node.toList = path.toList ++ rest ∧ ∀ c ∈ rest.head?, c = '.' ∨ c = '['

/-- What the path of a child has before its name. -/
def opening (path : String) : List Char := if path = "" then [] else path.toList ++ ['.']

/-- The path of a child ends with its name. -/
theorem toList_child (path name : String) :
    (child path name).toList = opening path ++ name.toList := by
  rw [child, opening]
  by_cases hroot : path = ""
  · rw [if_pos hroot, if_pos hroot, List.nil_append]
  · rw [if_neg hroot, if_neg hroot, String.toList_append, String.toList_append]
    rfl

/-- The path of an element ends with its number in brackets. -/
theorem toList_element (path : String) (index : Nat) :
    (element path index).toList = path.toList ++ '[' :: (Nat.toDigits 10 index ++ [']']) := by
  simp [element, Nat.toString_eq_repr, Nat.toList_repr]

section Reading

variable {path node name other : String} {index number : Nat}

/-- Every path begins with itself. -/
theorem Begins.refl (path : String) : Begins path path :=
  ⟨[], (List.append_nil _).symm, fun c hc => by cases hc⟩

/-- What begins with a path begins with whatever that begins with. -/
theorem Begins.trans {middle : String} (hpath : Begins path middle) (hnode : Begins middle node) :
    Begins path node := by
  obtain ⟨front, hfront, hends⟩ := hpath
  obtain ⟨back, hback, hends'⟩ := hnode
  refine ⟨front ++ back, by rw [hback, hfront, List.append_assoc], ?_⟩
  cases front with
  | nil => exact hends'
  | cons c front => exact hends

/-- The path of an element begins with that of its array. -/
theorem begins_element (path : String) (index : Nat) : Begins path (element path index) := by
  refine ⟨_, toList_element path index, fun c hc => Or.inr ?_⟩
  exact (Option.some.inj hc).symm

/-- The path of a child begins with that of its parent, if that is not the root. -/
theorem begins_child (hpath : path ≠ "") (name : String) : Begins path (child path name) := by
  refine ⟨'.' :: name.toList, ?_, fun c hc => Or.inl (Option.some.inj hc).symm⟩
  rw [toList_child, opening, if_neg hpath, List.append_assoc, List.singleton_append]

/-- What begins with a path is not shorter. -/
theorem Begins.length_le (h : Begins path node) : path.toList.length ≤ node.toList.length := by
  obtain ⟨rest, hnode, _⟩ := h
  rw [hnode, List.length_append]
  exact Nat.le_add_right _ _

/-- The path of an element is longer than that of its array. -/
theorem length_lt_element (path : String) (index : Nat) :
    path.toList.length < (element path index).toList.length := by
  rw [toList_element, List.length_append, List.length_cons]
  omega

/-- The path of a child is longer than that of its parent, if the name is not empty. -/
theorem length_lt_child (path : String) (hname : name ≠ "") :
    path.toList.length < (child path name).toList.length := by
  have hpositive : 0 < name.toList.length :=
    List.length_pos_iff.mpr (mt String.toList_eq_nil_iff.mp hname)
  rw [toList_child, opening, List.length_append]
  by_cases hroot : path = ""
  · rw [if_pos hroot, hroot]
    exact Nat.lt_add_left _ hpositive
  · rw [if_neg hroot, List.length_append]
    omega

/-- Where all of a front passes a test and the rest starts with what does not, the front is what can
be read off. -/
theorem takeWhile_front {p : Char → Bool} {front rest : List Char} (hfront : ∀ c ∈ front, p c = true)
    (hrest : ∀ c ∈ rest.head?, p c = false) : (front ++ rest).takeWhile p = front := by
  rw [List.takeWhile_append_of_pos hfront]
  cases rest with
  | nil => exact List.append_nil front
  | cons c rest => rw [List.takeWhile_cons, hrest c rfl, if_neg Bool.false_ne_true, List.append_nil]

/-- After its opening, the path of what lies in a child has the child's name up to the next sign. -/
theorem takeWhile_of_begins_child (hname : Plain name) (h : Begins (child path name) node) :
    (node.toList.drop (opening path).length).takeWhile (fun c => c != '.' && c != '[') =
      name.toList := by
  obtain ⟨rest, hnode, hends⟩ := h
  rw [hnode, toList_child, List.append_assoc, List.drop_left]
  refine takeWhile_front (fun c hc => ?_) fun c hc => ?_
  · simp only [Bool.and_eq_true, bne_iff_ne]
    exact ⟨fun hdot => hname.2.1 (hdot ▸ hc), fun hbracket => hname.2.2 (hbracket ▸ hc)⟩
  · rcases hends c hc with rfl | rfl <;> rfl

/-- After the bracket, the path of what lies in an element has the digits of its number. -/
theorem takeWhile_of_begins_element (h : Begins (element path index) node) :
    (node.toList.drop (path.toList ++ ['[']).length).takeWhile Char.isDigit =
      Nat.toDigits 10 index := by
  obtain ⟨rest, hnode, _⟩ := h
  have hsplit : node.toList =
      (path.toList ++ ['[']) ++ (Nat.toDigits 10 index ++ (']' :: rest)) := by
    rw [hnode, toList_element]
    simp only [List.append_assoc, List.cons_append, List.nil_append]
  rw [hsplit, List.drop_left]
  refine takeWhile_front (fun c hc => ?_) fun c hc => ?_
  · exact Nat.isDigit_of_mem_toDigits (by decide) (by decide) hc
  · cases hc
    rfl

/-- A text lies in one child of a path only, if names are plain. -/
theorem child_inj (hname : Plain name) (hother : Plain other) (h : Begins (child path name) node)
    (h' : Begins (child path other) node) : name = other := by
  rw [← String.toList_inj, ← takeWhile_of_begins_child hname h,
    takeWhile_of_begins_child hother h']

/-- A text lies in one element of a path only. -/
theorem element_inj (h : Begins (element path index) node)
    (h' : Begins (element path number) node) : index = number := by
  have hdigits : Nat.toDigits 10 index = Nat.toDigits 10 number := by
    rw [← takeWhile_of_begins_element h, takeWhile_of_begins_element h']
  have hread := congrArg (fun digits => Nat.ofDigitChars 10 digits 0) hdigits
  rwa [Nat.ofDigitChars_toDigits (by decide) (by decide),
    Nat.ofDigitChars_toDigits (by decide) (by decide)] at hread

end Reading

end Path

/-- Which elements of an array are meant: those that it counts, or any, as in a value that has too
many. -/
inductive Reach
  | counted
  | any
deriving Repr, DecidableEq

/-- An index is that of an element that is meant. -/
def Reach.covers (reach : Reach) (count : UInt64) (index : Nat) : Bool :=
  match reach with
  | counted => index < count.toNat
  | any => true

namespace Shape

/-- The part with a number in a shape at a path, if there is one: its path and its shape. The
variants of an enum all have numbers, but only those with a payload have a part. -/
def partAt? (reach : Reach) : Shape → String → Nat → Option (String × Shape)
  | scalar _, _, _ => none
  | array elem count, path, index =>
    if reach.covers count index then some (Path.element path index, elem) else none
  | struct fields, path, index =>
    fields[index]?.map fun field => (Path.child path field.name, field.item)
  | enum variants, path, index =>
    variants[index]?.bind fun variant =>
      variant.payload.map fun shape => (Path.child path variant.name, shape)
  | union members, path, index =>
    members[index]?.map fun member => (Path.child path member.name, member.item)

/-- What a position leads to in a shape at a path: the path there, and the shape. A position is the
numbers of the parts on the way. -/
def locate? (reach : Reach) : Shape → String → List Nat → Option (String × Shape)
  | shape, path, [] => some (path, shape)
  | shape, path, index :: rest =>
    (shape.partAt? reach path index).bind fun part => locate? reach part.2 part.1 rest

/-- The names that a shape itself gives to its fields, variants or members. -/
def partNames : Shape → List String
  | scalar _ => []
  | array _ _ => []
  | struct fields => fields.map Named.name
  | enum variants => variants.map Variant.name
  | union members => members.map Named.name

/-- A name is given somewhere in a shape. -/
def Gives (reach : Reach) (shape : Shape) (name : String) : Prop :=
  ∃ position node part, shape.locate? reach Path.root position = some (node, part) ∧
    name ∈ part.partNames

variable {reach : Reach} {shape part : Shape} {path node : String} {index : Nat}
  {position : List Nat}

/-- A position with a part in front leads on from that part. -/
theorem locate?_cons_eq_some {found : String × Shape} :
    shape.locate? reach path (index :: position) = some found ↔
      ∃ next part, shape.partAt? reach path index = some (next, part) ∧
        part.locate? reach next position = some found := by
  rw [locate?, Option.bind_eq_some_iff, Prod.exists]

/-- A part has the path of an element, or that of a child under a name that the shape gives. -/
theorem partAt?_eq_some (hpart : shape.partAt? reach path index = some (node, part)) :
    (∃ elem count, shape = .array elem count ∧ node = Path.element path index) ∨
      ((∀ elem count, shape ≠ .array elem count) ∧
        ∃ name, shape.partNames[index]? = some name ∧ node = Path.child path name) := by
  cases shape with
  | scalar kind => cases hpart
  | array elem count =>
    refine Or.inl ⟨elem, count, rfl, ?_⟩
    rw [partAt?, Option.ite_none_right_eq_some] at hpart
    cases hpart.2
    rfl
  | struct fields =>
    refine Or.inr ⟨nofun, ?_⟩
    obtain ⟨field, hfield, hresult⟩ := Option.map_eq_some_iff.mp hpart
    cases hresult
    exact ⟨field.name, by rw [partNames, List.getElem?_map, hfield, Option.map_some], rfl⟩
  | enum variants =>
    refine Or.inr ⟨nofun, ?_⟩
    obtain ⟨variant, hvariant, hresult⟩ := Option.bind_eq_some_iff.mp hpart
    obtain ⟨_, _, hresult⟩ := Option.map_eq_some_iff.mp hresult
    cases hresult
    exact ⟨variant.name, by rw [partNames, List.getElem?_map, hvariant, Option.map_some], rfl⟩
  | union members =>
    refine Or.inr ⟨nofun, ?_⟩
    obtain ⟨member, hmember, hresult⟩ := Option.map_eq_some_iff.mp hpart
    cases hresult
    exact ⟨member.name, by rw [partNames, List.getElem?_map, hmember, Option.map_some], rfl⟩

/-- A property of shapes holds throughout if each shape inherits it from the parts that lie at
positions in it. -/
theorem byPartAt (reach : Reach) {motive : Shape → Prop}
    (inherit : ∀ shape, (∀ path index node part,
      shape.partAt? reach path index = some (node, part) → motive part) → motive shape)
    (shape : Shape) : motive shape := by
  induction shape with
  | scalar kind => exact inherit _ fun _ _ _ _ hpart => by cases hpart
  | array elem count ih =>
    refine inherit _ fun path index node part hpart => ?_
    rw [partAt?, Option.ite_none_right_eq_some] at hpart
    cases hpart.2
    exact ih
  | struct fields ih =>
    refine inherit _ fun path index node part hpart => ?_
    obtain ⟨field, hfield, hresult⟩ := Option.map_eq_some_iff.mp hpart
    cases hresult
    exact ih field (List.mem_of_getElem? hfield)
  | enum variants ih =>
    refine inherit _ fun path index node part hpart => ?_
    obtain ⟨variant, hvariant, hresult⟩ := Option.bind_eq_some_iff.mp hpart
    obtain ⟨payload, hpayload, hresult⟩ := Option.map_eq_some_iff.mp hresult
    cases hresult
    exact ih variant (List.mem_of_getElem? hvariant) part hpayload
  | union members ih =>
    refine inherit _ fun path index node part hpart => ?_
    obtain ⟨member, hmember, hresult⟩ := Option.map_eq_some_iff.mp hpart
    cases hresult
    exact ih member (List.mem_of_getElem? hmember)

/-- A part of a well-formed shape is well formed. -/
theorem WellFormed.partAt? (hwell : shape.WellFormed)
    (hpart : shape.partAt? reach path index = some (node, part)) : part.WellFormed := by
  cases hwell with
  | scalar kind => cases hpart
  | array count helem =>
    rw [Shape.partAt?, Option.ite_none_right_eq_some] at hpart
    cases hpart.2
    exact helem
  | struct _ hfields =>
    obtain ⟨field, hfield, hresult⟩ := Option.map_eq_some_iff.mp hpart
    cases hresult
    exact hfields field (List.mem_of_getElem? hfield)
  | enum _ _ _ hvariants =>
    obtain ⟨variant, hvariant, hresult⟩ := Option.bind_eq_some_iff.mp hpart
    obtain ⟨payload, hpayload, hresult⟩ := Option.map_eq_some_iff.mp hresult
    cases hresult
    exact hvariants variant (List.mem_of_getElem? hvariant) part hpayload
  | union _ _ hmembers =>
    obtain ⟨member, hmember, hresult⟩ := Option.map_eq_some_iff.mp hpart
    cases hresult
    exact hmembers member (List.mem_of_getElem? hmember)

/-- A well-formed shape gives no name twice. -/
theorem WellFormed.nodup_partNames (hwell : shape.WellFormed) : shape.partNames.Nodup := by
  cases hwell with
  | scalar kind => exact List.nodup_nil
  | array count _ => exact List.nodup_nil
  | struct hnames _ => exact hnames
  | enum _ hnames _ _ => exact hnames
  | union _ hnames _ => exact hnames

/-- Every name that is given in a shape at a path, itself or in what positions lead to, is plain. -/
def PlainWithin (reach : Reach) (shape : Shape) (path : String) : Prop :=
  ∀ position node part, shape.locate? reach path position = some (node, part) →
    ∀ name ∈ part.partNames, Path.Plain name

/-- What is plain throughout is so in each part. -/
theorem PlainWithin.of_part (hplain : shape.PlainWithin reach path)
    (hpart : shape.partAt? reach path index = some (node, part)) : part.PlainWithin reach node :=
  fun position node' part' hlocate =>
    hplain (index :: position) node' part' (locate?_cons_eq_some.mpr ⟨_, _, hpart, hlocate⟩)

/-- Where names are plain, every part has a longer path than what it is a part of. -/
theorem PlainWithin.length_lt (hplain : shape.PlainWithin reach path)
    (hpart : shape.partAt? reach path index = some (node, part)) :
    path.toList.length < node.toList.length := by
  rcases partAt?_eq_some hpart with ⟨_, _, _, rfl⟩ | ⟨_, name, hname, rfl⟩
  · exact Path.length_lt_element path index
  · have hgiven := hplain [] path shape rfl name (List.mem_of_getElem? hname)
    exact Path.length_lt_child path hgiven.1

/-- Away from the root, whatever a position leads to has a path that begins with where it starts. -/
theorem begins_of_locate? (hpath : path ≠ "")
    (hlocate : shape.locate? reach path position = some (node, part)) : Path.Begins path node := by
  induction position generalizing shape path with
  | nil =>
    cases hlocate
    exact .refl _
  | cons index position ih =>
    obtain ⟨next, inner, hpart, hrest⟩ := locate?_cons_eq_some.mp hlocate
    have hbegins : Path.Begins path next := by
      rcases partAt?_eq_some hpart with ⟨_, _, _, rfl⟩ | ⟨_, name, _, rfl⟩
      · exact Path.begins_element path index
      · exact Path.begins_child hpath name
    have hnext : next ≠ "" := by
      rintro rfl
      exact hpath (String.toList_eq_nil_iff.mp (List.length_eq_zero_iff.mp
        (Nat.le_zero.mp hbegins.length_le)))
    exact hbegins.trans (ih hnext hrest)

/-- Where names are plain, the path of what lies in a part begins with that of the part. -/
theorem PlainWithin.begins (hplain : shape.PlainWithin reach path) {next : String} {inner : Shape}
    (hpart : shape.partAt? reach path index = some (next, inner))
    (hlocate : inner.locate? reach next position = some (node, part)) : Path.Begins next node := by
  refine begins_of_locate? ?_ hlocate
  rintro rfl
  exact absurd (hplain.length_lt hpart) (Nat.not_lt_zero _)

/-- In a well-formed shape with plain names, a path lies in one part only. -/
theorem PlainWithin.index_eq (hplain : shape.PlainWithin reach path) (hwell : shape.WellFormed)
    {number : Nat} {next other : String} {inner outer : Shape}
    (hpart : shape.partAt? reach path index = some (next, inner))
    (hother : shape.partAt? reach path number = some (other, outer))
    (hnext : Path.Begins next node) (hnode : Path.Begins other node) : index = number := by
  rcases partAt?_eq_some hpart with ⟨elem, count, harray, rfl⟩ | ⟨hnamed, name, hname, rfl⟩
  · rcases partAt?_eq_some hother with ⟨_, _, _, rfl⟩ | ⟨hnamed, _⟩
    · exact Path.element_inj hnext hnode
    · exact absurd harray (hnamed elem count)
  · rcases partAt?_eq_some hother with ⟨elem, count, harray, _⟩ | ⟨_, name', hname', rfl⟩
    · exact absurd harray (hnamed elem count)
    · have hgiven := hplain [] path shape rfl
      have hsame : name = name' :=
        Path.child_inj (hgiven name (List.mem_of_getElem? hname))
          (hgiven name' (List.mem_of_getElem? hname')) hnext hnode
      subst hsame
      have hindex : index < shape.partNames.length := (List.getElem?_eq_some_iff.mp hname).1
      exact (List.getElem?_inj hindex hwell.nodup_partNames).mp (hname.trans hname'.symm)

/-- In a well-formed shape with plain names, positions with one path are the same. -/
theorem PlainWithin.position_eq (hplain : shape.PlainWithin reach path) (hwell : shape.WellFormed)
    {position' : List Nat} {part' : Shape}
    (h : shape.locate? reach path position = some (node, part))
    (h' : shape.locate? reach path position' = some (node, part')) : position = position' := by
  induction position generalizing shape path position' with
  | nil =>
    cases h
    cases position' with
    | nil => rfl
    | cons index position' =>
      obtain ⟨next, inner, hpart, hrest⟩ := locate?_cons_eq_some.mp h'
      have hle := (hplain.begins hpart hrest).length_le
      exact absurd (hplain.length_lt hpart) (Nat.not_lt.mpr hle)
  | cons index position ih =>
    obtain ⟨next, inner, hpart, hrest⟩ := locate?_cons_eq_some.mp h
    cases position' with
    | nil =>
      cases h'
      have hle := (hplain.begins hpart hrest).length_le
      exact absurd (hplain.length_lt hpart) (Nat.not_lt.mpr hle)
    | cons index' position' =>
      obtain ⟨next', inner', hpart', hrest'⟩ := locate?_cons_eq_some.mp h'
      have hindex := hplain.index_eq hwell hpart hpart' (hplain.begins hpart hrest)
        (hplain.begins hpart' hrest')
      subst hindex
      cases hpart.symm.trans hpart'
      rw [ih (hplain.of_part hpart) (hwell.partAt? hpart) hrest hrest']

/-- In a validated shape, two positions have the same path only if some name that the shape gives is
empty or has a dot or an opening bracket. So where all names are plain, no path that something is
selected at is that of two positions. -/
theorem gives_unplain_of_path_eq (reach : Reach) (shape : Shape) (hvalid : shape.validate = .ok ()) :
    (∀ p q node x y, shape.locate? reach Path.root p = some (node, x) →
      shape.locate? reach Path.root q = some (node, y) → p ≠ q →
      ∃ name, shape.Gives reach name ∧ (name = "" ∨ '.' ∈ name.toList ∨ '[' ∈ name.toList)) ∧
    ((∀ name, shape.Gives reach name → Path.Plain name) → ∀ key : String,
      {position |
        ∃ part, shape.locate? reach Path.root position = some (key, part)}.Subsingleton) := by
  have hwell := wellFormed_of_validate hvalid
  have hunique : (∀ name, shape.Gives reach name → Path.Plain name) →
      shape.PlainWithin reach Path.root :=
    fun hplain position node part hlocate name hname =>
      hplain name ⟨position, node, part, hlocate, hname⟩
  refine ⟨fun p q node x y hp hq hne => ?_, fun hplain key p hp q hq => ?_⟩
  · by_contra hnone
    push Not at hnone
    exact hne ((hunique hnone).position_eq hwell hp hq)
  · obtain ⟨_, hp⟩ := hp
    obtain ⟨_, hq⟩ := hq
    exact (hunique hplain).position_eq hwell hp hq

end Shape

namespace Samples

/-- A struct with a field under a dotted name and one that is named like the way to it. -/
def dotted : Shape :=
  .struct [field "a.b" .u8, ⟨"a", .struct [field "b" .u16]⟩]

end Samples

namespace Shape

/-- Nothing lies in a scalar but itself. -/
theorem locate?_scalar_eq_some {kind : ScalarKind}
    (hlocate : (Shape.scalar kind).locate? reach path position = some (node, part)) :
    part = .scalar kind := by
  cases position with
  | nil =>
    cases hlocate
    rfl
  | cons index position => cases hlocate

/-- The names in a point are plain. -/
theorem plain_of_gives_point {name : String} (hgives : Samples.point.Gives reach name) :
    Path.Plain name := by
  obtain ⟨position, node, part, hlocate, hname⟩ := hgives
  cases position with
  | nil =>
    cases hlocate
    simp only [Samples.point, Samples.field, partNames, List.map_cons, List.map_nil,
      List.mem_cons, List.not_mem_nil, or_false] at hname
    rcases hname with rfl | rfl <;> exact ⟨by decide, by decide, by decide⟩
  | cons index position =>
    obtain ⟨next, inner, hpart, hrest⟩ := locate?_cons_eq_some.mp hlocate
    match index, hpart with
    | 0, rfl | 1, rfl =>
      cases locate?_scalar_eq_some hrest
      cases hname

/-- The dotted field and the inner one share a path, and one of the names has a dot. In a point,
where names are plain, no path is shared. -/
theorem gives_unplain_of_path_eq_dotted :
    (Samples.dotted.validate = .ok () ∧
      Samples.dotted.locate? .counted Path.root [0] = some ("a.b", .scalar .u8) ∧
      Samples.dotted.locate? .counted Path.root [1, 0] = some ("a.b", .scalar .u16) ∧
      ∃ name, Samples.dotted.Gives .counted name ∧
        (name = "" ∨ '.' ∈ name.toList ∨ '[' ∈ name.toList)) ∧
    Samples.point.validate = .ok () ∧
      (∀ name, Samples.point.Gives .counted name → Path.Plain name) ∧
      {position | ∃ part, Samples.point.locate? .counted Path.root position =
        some ("y", part)}.Subsingleton := by
  have hvalid : Samples.dotted.validate = .ok () := by decide
  have hfield : Samples.dotted.locate? .counted Path.root [0] = some ("a.b", .scalar .u8) := by rfl
  have hinner : Samples.dotted.locate? .counted Path.root [1, 0] =
      some ("a.b", .scalar .u16) := by rfl
  have hpoint : Samples.point.validate = .ok () := by decide
  refine ⟨⟨hvalid, hfield, hinner, ?_⟩, hpoint, fun _ => plain_of_gives_point, ?_⟩
  · exact (gives_unplain_of_path_eq .counted _ hvalid).1 _ _ _ _ _ hfield hinner (by decide)
  · exact (gives_unplain_of_path_eq .counted _ hpoint).2 (fun _ => plain_of_gives_point) "y"

end Shape

end WireParity
