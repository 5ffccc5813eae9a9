import WireParity.Parity.Mismatch
import WireParity.Proofs.Value.Matching
import WireParity.Proofs.Value.ScalarText

/-!
# Which differences can be seen

A comparison decides on values and shows texts. A length, a tag, a missing field and a missing payload
are shown as what they are, and values of different forms begin with different characters, so all of
these can be seen. What is left are two scalars that do not agree. Their texts are the same only where
one is a float of single and the other of double precision and both show the same, since nothing in the
text of a float tells its width.
-/

namespace WireParity

/-- The path to what lies at the end of a way. -/
def Path.follow : String → List Step → String
  | path, [] => path
  | path, .item index :: way => follow (element path index) way
  | path, .field name :: way => follow (child path name) way
  | path, .payload tag :: way => follow (child path s!"#{tag}") way

namespace Value

/-- Floats of the two widths that show the same stand at one place in two values. -/
structure Confuses (x y : Value) (way : List Step) (a b : Scalar) : Prop where
  expected : x.HasLeaf way a
  actual : y.HasLeaf way b
  kinds : a.kind = .f32 ∧ b.kind = .f64 ∨ a.kind = .f64 ∧ b.kind = .f32
  shown : a.shown = b.shown

section Texts

/-- The characters that values of composite forms begin with, and that of a word for no value. -/
def openings : List Char := ['[', '\x7b', '#', '<']

/-- The character that a value of a composite form begins with. -/
def opening? : Value → Option Char
  | scalar _ => none
  | array _ => some '['
  | struct _ => some '\x7b'
  | enum _ _ => some '#'

/-- The form of a value can be told by the first character of its text. -/
theorem opening?_eq (x : Value) :
    x.opening? = x.text.toList.head?.filter fun c => openings.contains c := by
  cases x with
  | scalar s =>
    rw [opening?, text]
    cases hhead : s.text.toList.head? with
    | none => rfl
    | some c =>
      have hc := s.mem_of_mem_head?_text hhead
      have hother : ¬openings.contains c = true := by
        rw [List.contains_iff_mem]
        intro hopening
        obtain rfl | rfl | rfl | rfl : c = '[' ∨ c = '\x7b' ∨ c = '#' ∨ c = '<' := by
          simpa [openings] using hopening
        all_goals exact absurd hc (by decide)
      rw [Option.filter_some, if_neg hother]
  | array items =>
    rw [opening?, text, String.toList_append, String.toList_append]
    rfl
  | struct fields =>
    rw [opening?, text, String.toList_append, String.toList_append]
    rfl
  | enum tag payload =>
    cases payload with
    | none =>
      rw [opening?, text, String.toList_append]
      rfl
    | some payload =>
      rw [opening?, text]
      simp only [String.toList_append]
      rfl

/-- Values with one text are of one form. -/
theorem opening?_eq_of_text_eq {x y : Value} (h : x.text = y.text) : x.opening? = y.opening? := by
  rw [opening?_eq, opening?_eq, h]

/-- No value has a text that stands for the lack of one. -/
theorem text_ne_lack (x : Value) : x.text ≠ "<missing>" ∧ x.text ≠ "<absent>" := by
  have hne : x.opening? ≠ some '<' := by cases x <;> simp [opening?]
  constructor <;> intro h <;> rw [opening?_eq, h] at hne <;> exact hne rfl

/-- An enum with a payload has another text than one without. -/
theorem text_loaded_ne_bare (tag : UInt8) (payload : Value) :
    (enum tag (some payload)).text ≠ (enum tag none).text := by
  intro h
  have hlength := congrArg String.length h
  rw [text, text] at hlength
  simp only [String.length_append] at hlength
  have hbracket : "(".length = 1 := rfl
  omega

/-- Arrays of different lengths are shown as that. -/
theorem length_text_ne {m n : Nat} (hne : m ≠ n) : s!"{m} elements" ≠ s!"{n} elements" := by
  intro h
  exact hne (Numeral.eq_of_toString_eq ((String.append_left_inj " elements").mp h))

/-- Different tags are shown as that. -/
theorem tag_text_ne {tag other : UInt8} (hne : tag ≠ other) : s!"tag {tag}" ≠ s!"tag {other}" := by
  intro h
  have hnumber : toString tag.toNat = toString other.toNat := (String.append_right_inj "tag ").mp h
  exact hne (UInt8.toNat_inj.mp (Numeral.eq_of_toString_eq hnumber))

end Texts

section Places

variable {path : String} {d : Difference}

/-- A difference between arrays of items is one between two items at one index. -/
theorem exists_of_itemsDifference {index : Nat} {xs ys : List Value}
    (h : itemsDifference path index xs ys = some d) :
    ∃ (i : Nat) (x y : Value), xs[i]? = some x ∧ ys[i]? = some y ∧
      x.differenceAt y (Path.element path (index + i)) = some d := by
  induction xs generalizing index ys with
  | nil => simp [itemsDifference.eq_def] at h
  | cons x xs ih =>
    cases ys with
    | nil => simp [itemsDifference.eq_def] at h
    | cons y ys =>
      rw [itemsDifference] at h
      cases hfirst : x.differenceAt y (Path.element path index) with
      | some first =>
        rw [hfirst] at h
        exact ⟨0, x, y, rfl, rfl, hfirst.trans h⟩
      | none =>
        rw [hfirst] at h
        obtain ⟨i, a, b, ha, hb, hd⟩ := ih h
        refine ⟨i + 1, a, b, ha, hb, ?_⟩
        rwa [Nat.add_assoc, Nat.add_comm 1] at hd

/-- A difference between fields is one of a field that is missing, or one between two of a name. -/
theorem exists_of_fieldsDifference {expected actual : List (Named Value)}
    (h : fieldsDifference path expected actual = some d) :
    ∃ x ∈ expected, (fieldIn? x.name actual = none ∧
        d = ⟨Path.child path x.name, x.item.text, "<missing>"⟩) ∨
      ∃ y, fieldIn? x.name actual = some y ∧
        x.item.differenceAt y (Path.child path x.name) = some d := by
  induction expected with
  | nil => simp [fieldsDifference] at h
  | cons x expected ih =>
    obtain ⟨name, item⟩ := x
    rw [fieldsDifference] at h
    cases hfound : fieldIn? name actual with
    | none =>
      rw [hfound] at h
      cases h
      exact ⟨_, List.mem_cons_self, Or.inl ⟨hfound, rfl⟩⟩
    | some y =>
      rw [hfound] at h
      cases hfirst : item.differenceAt y (Path.child path name) with
      | some first =>
        simp only [hfirst] at h
        exact ⟨_, List.mem_cons_self, Or.inr ⟨y, hfound, hfirst.trans h⟩⟩
      | none =>
        simp only [hfirst] at h
        obtain ⟨x, hx, hd⟩ := ih h
        exact ⟨x, List.mem_cons_of_mem _ hx, hd⟩

/-- Values of different forms differ as a whole. -/
theorem differenceAt_of_opening?_ne {x y : Value} (hne : x.opening? ≠ y.opening?) (path : String) :
    x.differenceAt y path = some ⟨path, x.text, y.text⟩ := by
  cases x <;> cases y <;> first | exact absurd rfl hne | rw [differenceAt] <;> simp

/-- Values with a difference that is shown alike on both sides are of one form. -/
theorem opening?_eq_of_alike {x y : Value} (h : x.differenceAt y path = some d)
    (halike : d.expected = d.actual) : x.opening? = y.opening? := by
  by_contra hne
  rw [differenceAt_of_opening?_ne hne path] at h
  cases h
  exact hne (opening?_eq_of_text_eq halike)

end Places

namespace Confuses

variable {x y : Value} {way : List Step} {a b : Scalar}

/-- Two scalars that do not agree are shown alike only as floats of the two widths. -/
theorem scalar (hagrees : ¬a.agrees b = true) (htext : a.text = b.text) :
    Confuses (.scalar a) (.scalar b) [] a b := by
  have hshown := Scalar.text_eq_text_iff.mp htext
  refine ⟨.scalar a, .scalar b, (Scalar.kind_of_shown_eq hshown).resolve_left fun hkind => ?_, hshown⟩
  exact hagrees (Scalar.eq_of_shown_eq hkind hshown ▸ a.agrees_self)

/-- What stands in elements of one index stands in their arrays. -/
theorem item (h : Confuses x y way a b) {xs ys : List Value} {index : Nat}
    (hx : xs[index]? = some x) (hy : ys[index]? = some y) :
    Confuses (.array xs) (.array ys) (.item index :: way) a b :=
  ⟨.item hx h.expected, .item hy h.actual, h.kinds, h.shown⟩

/-- What stands in fields of one name stands in their structs. -/
theorem field {x y : Named Value} (h : Confuses x.item y.item way a b)
    {xs ys : List (Named Value)} (hx : x ∈ xs) (hy : y ∈ ys) (hname : y.name = x.name) :
    Confuses (.struct xs) (.struct ys) (.field x.name :: way) a b :=
  ⟨.field hx h.expected, hname ▸ .field hy h.actual, h.kinds, h.shown⟩

/-- What stands in payloads of one tag stands in their enums. -/
theorem payload (h : Confuses x y way a b) (tag : UInt8) :
    Confuses (.enum tag (some x)) (.enum tag (some y)) (.payload tag :: way) a b :=
  ⟨.payload h.expected, .payload h.actual, h.kinds, h.shown⟩

end Confuses

/-- A difference that is shown alike on both sides is one between floats of the two widths. -/
theorem exists_confuses_of_differenceAt (x y : Value) (path : String) {d : Difference}
    (h : x.differenceAt y path = some d) (halike : d.expected = d.actual) :
    ∃ way a b, Confuses x y way a b ∧ d = ⟨Path.follow path way, a.text, b.text⟩ := by
  have hform := opening?_eq_of_alike h halike
  induction x generalizing y path with
  | scalar a =>
    cases y with
    | scalar b =>
      rw [differenceAt] at h
      by_cases hagrees : a.agrees b = true
      · rw [if_pos hagrees] at h
        cases h
      · rw [if_neg hagrees] at h
        cases h
        exact ⟨[], a, b, .scalar hagrees halike, rfl⟩
    | _ => cases hform
  | array xs ih =>
    cases y with
    | array ys =>
      rw [differenceAt] at h
      by_cases hlength : xs.length = ys.length
      · rw [if_pos hlength] at h
        obtain ⟨i, x, y, hx, hy, hd⟩ := exists_of_itemsDifference h
        rw [Nat.zero_add] at hd
        obtain ⟨way, a, b, hconfuses, rfl⟩ :=
          ih x (List.mem_of_getElem? hx) y _ hd (opening?_eq_of_alike hd halike)
        exact ⟨_, a, b, hconfuses.item hx hy, rfl⟩
      · rw [if_neg hlength] at h
        cases h
        exact absurd halike (length_text_ne hlength)
    | _ => cases hform
  | struct xs ih =>
    cases y with
    | struct ys =>
      rw [differenceAt] at h
      cases hfields : fieldsDifference path xs ys with
      | some first =>
        simp only [hfields] at h
        cases h
        obtain ⟨x, hx, ⟨-, rfl⟩ | ⟨y, hfound, hd⟩⟩ := exists_of_fieldsDifference hfields
        · exact absurd halike x.item.text_ne_lack.1
        · obtain ⟨way, a, b, hconfuses, rfl⟩ :=
            ih x hx y _ hd (opening?_eq_of_alike hd halike)
          exact ⟨_, a, b, hconfuses.field hx (mem_of_fieldIn? hfound) rfl, rfl⟩
      | none =>
        simp only [hfields] at h
        obtain ⟨field, -, rfl⟩ := Option.map_eq_some_iff.mp h
        exact absurd halike.symm field.item.text_ne_lack.2
    | _ => cases hform
  | bare tag =>
    cases y with
    | enum other payload =>
      rw [differenceAt.eq_def] at h
      by_cases htag : tag = other
      · subst htag
        cases payload with
        | none => simp at h
        | some y =>
          simp only [if_true, Option.some.injEq] at h
          subst h
          exact absurd halike.symm (text_loaded_ne_bare tag y)
      · simp only [if_neg htag, Option.some.injEq] at h
        subst h
        exact absurd halike (tag_text_ne htag)
    | _ => cases hform
  | loaded tag x ih =>
    cases y with
    | enum other payload =>
      rw [differenceAt.eq_def] at h
      by_cases htag : tag = other
      · subst htag
        cases payload with
        | none =>
          simp only [if_true, Option.some.injEq] at h
          subst h
          exact absurd halike (text_loaded_ne_bare tag x)
        | some y =>
          simp only [if_true] at h
          obtain ⟨way, a, b, hconfuses, rfl⟩ := ih y _ h (opening?_eq_of_alike h halike)
          exact ⟨_, a, b, hconfuses.payload tag, rfl⟩
      · simp only [if_neg htag, Option.some.injEq] at h
        subst h
        exact absurd halike (tag_text_ne htag)
    | _ => cases hform

/-- A difference is shown alike on both sides exactly where it is one between a float of single and one
of double precision that show the same. A finding about two values takes its texts from their
difference, so this says which findings expect what they got. -/
theorem expected_eq_actual_iff (x y : Value) :
    (∀ d, x.difference? y = some d →
      (d.expected = d.actual ↔
        ∃ way a b, Confuses x y way a b ∧ d = ⟨Path.follow Path.root way, a.text, b.text⟩)) ∧
    ∀ (shape : Shape) (s : Selections) (m : ValueMismatch), valueMismatch? shape s x y = some m →
      (m.expected = m.actual ↔
        ∃ way a b, Confuses x y way a b ∧ m.path = Path.follow Path.root way ∧
          m.expected = a.text ∧ m.actual = b.text) := by
  have hdifference : ∀ d, x.difference? y = some d → (d.expected = d.actual ↔
      ∃ way a b, Confuses x y way a b ∧ d = ⟨Path.follow Path.root way, a.text, b.text⟩) := by
    refine fun d h => ⟨exists_confuses_of_differenceAt x y Path.root h, ?_⟩
    rintro ⟨way, a, b, hconfuses, rfl⟩
    exact Scalar.text_eq_text_iff.mpr hconfuses.shown
  refine ⟨hdifference, fun shape s m hm => ?_⟩
  obtain ⟨d, hd, rfl⟩ := Option.map_eq_some_iff.mp hm
  cases d with
  | mk => simpa only [Difference.mk.injEq] using hdifference _ hd

/-- One is shown alike in both widths. -/
theorem expected_eq_actual_iff_one :
    let x := scalar (Scalar.ofBits .f32 0x3f800000)
    let y := scalar (Scalar.ofBits .f64 0x3ff0000000000000)
    x.difference? y = some ⟨"", "1.0", "1.0"⟩ ∧
      ∃ way a b, Confuses x y way a b ∧ Path.follow Path.root way = "" ∧ a.text = "1.0" := by
  intro x y
  have hd : x.difference? y = some ⟨"", "1.0", "1.0"⟩ := by decide +kernel
  obtain ⟨way, a, b, hconfuses, hsame⟩ := ((expected_eq_actual_iff x y).1 _ hd).mp rfl
  rw [Difference.mk.injEq] at hsame
  exact ⟨hd, way, a, b, hconfuses, hsame.1.symm, hsame.2.1.symm⟩

/-- A difference that cannot be seen: two floats that are not equal have one text. -/
theorem difference?_shown_alike :
    ∃ d, (scalar (Scalar.ofBits .f32 0x3f800000)).difference?
        (scalar (Scalar.ofBits .f64 0x3ff0000000000000)) = some d ∧ d.expected = d.actual :=
  ⟨⟨"", "1.0", "1.0"⟩, by decide +kernel, rfl⟩

end Value

end WireParity
