import WireParity.Proofs.Codec.JsonScalar
import WireParity.Proofs.Number.DecimalText
import WireParity.Proofs.Shape.Json

/-!
# What the text of a scalar shows

The text of an integer shows the integer and its kind. The text of a float shows less: the pattern of
what is not a number, the sign of an infinity, or the sign and the shortest decimal of a finite number.
`Shown` holds just that, a text can be read back to it, and so two scalars have one text exactly if
they show the same. Once the kind is known, what is shown gives back every bit. Without it, the two
widths of floats can be taken for each other, and nothing else can.
-/

namespace WireParity

open Numeral

/-- What the text of a scalar shows. -/
inductive Shown
  | integer (kind : ScalarKind) (n : Int)
  | pattern (digits bits : Nat)
  | infinity (negative : Bool)
  | decimal (negative : Bool) (d : Decimal)
deriving DecidableEq

/-- What the text of a scalar shows of it. -/
def Scalar.shown (s : Scalar) : Shown :=
  let f := s.kind.format
  if s.kind.isFloat then
    if f.isNaN s.bits then .pattern (2 * s.kind.width) s.bits
    else if f.isInfinite s.bits then .infinity (f.isNegative s.bits)
    else .decimal (f.isNegative s.bits)
      (Decimal.shortest f Scalar.floatStyle.tie (f.magnitude s.bits))
  else .integer s.kind s.toInt

namespace Shown

/-- The kind, where it is shown. -/
def kind? : Shown → Option ScalarKind
  | integer kind _ => some kind
  | _ => none

/-- The text of what is shown. -/
def text : Shown → String
  | integer kind n => toString n ++ kind.name
  | pattern digits bits => "NaN(0x" ++ Hex.word digits bits ++ ")"
  | infinity negative => if negative then "-inf" else "inf"
  | decimal negative d =>
    (if negative then "-" else "") ++
      if d.digits = 0 then "0.0" else Scalar.floatStyle.decimal d

/-- What a text shows. Its letters tell which of the four it is. -/
def ofText? (text : List Char) : Option Shown :=
  if 'N' ∈ text then
    let digits := upTo ')' (beyond 'x' text)
    (Hex.number? 0 digits).map (pattern digits.length)
  else if 'f' ∈ text then some (infinity (text.head? == some '-'))
  else if 'u' ∈ text ∨ 'i' ∈ text then
    let number := text.takeWhile fun c => c.isDigit || c == '-'
    (ScalarKind.ofName? (String.ofList (text.drop number.length))).map fun kind =>
      integer kind (integerOf number)
  else
    match text with
    | '-' :: unsigned => some (decimal true (Decimal.ofText unsigned))
    | unsigned => some (decimal false (Decimal.ofText unsigned))

/-- The pattern of a kind that is shown so. -/
def bits (kind : ScalarKind) : Shown → Nat
  | integer _ n => (n % (kind.modulus : Nat)).toNat
  | pattern _ bits => bits
  | infinity negative => kind.format.withSign negative kind.format.infinity
  | decimal negative d => kind.format.withSign negative (d.read kind.format)

end Shown

namespace ScalarKind

/-- The kinds of floats are two. -/
theorem eq_of_isFloat {kind : ScalarKind} (hfloat : kind.isFloat = true) :
    kind = .f32 ∨ kind = .f64 := by
  cases kind with
  | f32 => exact Or.inl rfl
  | f64 => exact Or.inr rfl
  | _ => cases hfloat

/-- The name of a kind of integers is a letter and digits. -/
theorem toList_name {kind : ScalarKind} (hkind : kind.isFloat = false) :
    ∃ letter rest, kind.name.toList = letter :: rest ∧ (letter = 'u' ∨ letter = 'i') ∧
      rest.all Char.isDigit = true := by
  cases kind with
  | u8 | u16 | u32 | u64 => exact ⟨'u', _, rfl, Or.inl rfl, rfl⟩
  | i8 | i16 | i32 | i64 => exact ⟨'i', _, rfl, Or.inr rfl, rfl⟩
  | f32 | f64 => cases hkind

end ScalarKind

namespace Shown

/-- The text of an integer is digits, a minus sign and the letter of its kind. -/
theorem mem_integer {kind : ScalarKind} (hkind : kind.isFloat = false) {n : Int} {c : Char}
    (hc : c ∈ (toString n ++ kind.name).toList) : c.isDigit = true ∨ c ∈ ['-', 'u', 'i'] := by
  obtain ⟨letter, rest, hname, hletter, hrest⟩ := ScalarKind.toList_name hkind
  rw [String.toList_append, hname, List.mem_append, List.mem_cons] at hc
  rcases hc with hc | rfl | hc
  · exact (mem_toString hc).imp id fun h => by simp [h]
  · exact Or.inr (by rcases hletter with rfl | rfl <;> simp)
  · exact Or.inl (List.all_eq_true.mp hrest c hc)

/-- An integer is read back from its text, and so is its kind. -/
theorem ofText?_integer {kind : ScalarKind} (hkind : kind.isFloat = false) (n : Int) :
    ofText? (toString n ++ kind.name).toList = some (.integer kind n) := by
  have hnone : ∀ c, c.isDigit = false → c ∉ ['-', 'u', 'i'] →
      c ∉ (toString n ++ kind.name).toList := fun c hdigit hother hc =>
    (mem_integer hkind hc).elim (fun h => Bool.false_ne_true (hdigit.symm.trans h)) hother
  obtain ⟨letter, rest, hname, hletter, -⟩ := ScalarKind.toList_name hkind
  have hnumber : ∀ c ∈ (toString n).toList, (c.isDigit || c == '-') = true := by
    intro c hc
    rcases mem_toString hc with h | rfl
    · rw [h, Bool.true_or]
    · rfl
  have hstop : ¬(letter.isDigit || letter == '-') = true := by
    rcases hletter with rfl | rfl <;> exact Bool.false_ne_true
  have hbehind : (letter :: rest).takeWhile (fun c => c.isDigit || c == '-') = [] :=
    List.takeWhile_cons_of_neg hstop
  have hfront : (toString n ++ kind.name).toList.takeWhile (fun c => c.isDigit || c == '-') =
      (toString n).toList := by
    rw [String.toList_append, hname, List.takeWhile_append_of_pos hnumber, hbehind, List.append_nil]
  have hsome : 'u' ∈ (toString n ++ kind.name).toList ∨ 'i' ∈ (toString n ++ kind.name).toList := by
    rw [String.toList_append, hname]
    rcases hletter with rfl | rfl
    · exact Or.inl (by simp)
    · exact Or.inr (by simp)
  unfold ofText?
  rw [if_neg (hnone 'N' rfl (by decide)), if_neg (hnone 'f' rfl (by decide)), if_pos hsome]
  dsimp only
  rw [hfront, String.toList_append, List.drop_left, String.ofList_toList, ScalarKind.ofName?_name,
    integerOf_toString]
  rfl

/-- The pattern of what is not a number is read back from its text. -/
theorem ofText?_pattern {digits bits : Nat} (hbits : bits < 16 ^ digits) :
    ofText? ("NaN(0x" ++ Hex.word digits bits ++ ")").toList = some (.pattern digits bits) := by
  have htext : ("NaN(0x" ++ Hex.word digits bits ++ ")").toList =
      "NaN(0".toList ++ 'x' :: ((Hex.lowDigits digits bits).reverse ++ [')']) := by
    simp [Hex.word]
  have hend : ')' ∉ (Hex.lowDigits digits bits).reverse := fun h =>
    (Hex.ne_of_mem_lowDigits (List.mem_reverse.mp h)).2.2 rfl
  have hnumber := Hex.number?_lowDigits 0 digits bits
  rw [Nat.zero_mul, Nat.zero_add, Nat.mod_eq_of_lt hbits] at hnumber
  unfold ofText?
  rw [htext, if_pos (by simp)]
  dsimp only
  rw [(upTo_beyond_append (by decide) _).2, (upTo_beyond_append hend []).1, hnumber,
    List.length_reverse, Hex.length_lowDigits]
  rfl

/-- The sign and the shortest decimal of a finite float are read back from its text. -/
theorem ofText?_finite {f : FloatFormat} {bits : Nat} (hprecision : 0 < f.precision)
    (hfinite : f.magnitude bits < f.infinity) (style : DecimalStyle) :
    ofText? (style.finite f bits).toList =
      some (.decimal (f.isNegative bits) (Decimal.shortest f style.tie (f.magnitude bits))) := by
  obtain ⟨unsigned, htext, hhead, -, hread⟩ := style.exists_finite hprecision hfinite
  have hnone : ∀ c, c.isDigit = false → c ∉ ['.', 'e', '-', '+'] →
      c ∉ (style.finite f bits).toList := fun c hdigit hmark hc =>
    (style.mem_finite hprecision hfinite c hc).elim
      (fun h => Bool.false_ne_true (hdigit.symm.trans h)) hmark
  unfold ofText?
  rw [if_neg (hnone 'N' rfl (by decide)), if_neg (hnone 'f' rfl (by decide)),
    if_neg (not_or.mpr ⟨hnone 'u' rfl (by decide), hnone 'i' rfl (by decide)⟩), htext]
  cases f.isNegative bits with
  | true =>
    rw [if_pos rfl, ← hread]
    rfl
  | false =>
    rw [if_neg Bool.false_ne_true, List.nil_append, ← hread]
    split
    · next unsigned =>
      rcases hhead '-' rfl with h | h <;> cases h
    · rfl

end Shown

namespace Scalar

/-- A format of floats has a significand. -/
theorem format_precision_pos (s : Scalar) : 0 < s.kind.format.precision :=
  s.kind.format_widens.precision_pos

/-- What a scalar shows and how, in each of the four cases. -/
inductive Displays (s : Scalar) : Prop
  /-- An integer shows itself and its kind. -/
  | integer : s.kind.isFloat = false → s.text = toString s.toInt ++ s.kind.name →
      s.shown = .integer s.kind s.toInt → Displays s
  /-- What is not a number shows its pattern. -/
  | pattern : s.kind.isFloat = true →
      s.text = "NaN(0x" ++ Hex.word (2 * s.kind.width) s.bits ++ ")" →
      s.shown = .pattern (2 * s.kind.width) s.bits → Displays s
  /-- An infinity shows its sign. -/
  | infinity : s.kind.isFloat = true →
      s.kind.format.magnitude s.bits = s.kind.format.infinity →
      s.text = (if s.kind.format.isNegative s.bits then "-inf" else "inf") →
      s.shown = .infinity (s.kind.format.isNegative s.bits) → Displays s
  /-- A finite float shows its sign and its shortest decimal. -/
  | finite : s.kind.isFloat = true →
      s.kind.format.magnitude s.bits < s.kind.format.infinity →
      s.text = floatStyle.finite s.kind.format s.bits →
      s.shown = .decimal (s.kind.format.isNegative s.bits)
        (Decimal.shortest s.kind.format floatStyle.tie (s.kind.format.magnitude s.bits)) →
      Displays s

/-- Every scalar is one of the four. -/
theorem displays (s : Scalar) : s.Displays := by
  cases hfloat : s.kind.isFloat with
  | false =>
    refine .integer hfloat ?_ ?_
    · rw [text, hfloat, if_neg Bool.false_ne_true]
    · simp only [shown, hfloat, Bool.false_eq_true, if_false]
  | true =>
    have htext : s.text = s.floatText := by rw [text, hfloat, if_pos rfl]
    have hnan (h : ¬s.kind.format.infinity < s.kind.format.magnitude s.bits) :
        s.kind.format.isNaN s.bits = false := decide_eq_false h
    rcases Nat.lt_trichotomy (s.kind.format.magnitude s.bits) s.kind.format.infinity with
      hlt | heq | hgt
    · have hinfinite : s.kind.format.isInfinite s.bits = false := decide_eq_false (Nat.ne_of_lt hlt)
      refine .finite hfloat hlt ?_ ?_
      · simp only [htext, floatText, hnan (Nat.not_lt_of_lt hlt), hinfinite, Bool.false_eq_true,
          if_false]
      · simp only [shown, hfloat, hnan (Nat.not_lt_of_lt hlt), hinfinite, Bool.false_eq_true,
          if_false, if_true]
    · have hinfinite : s.kind.format.isInfinite s.bits = true := decide_eq_true heq
      have hnone := hnan (heq ▸ Nat.lt_irrefl _)
      refine .infinity hfloat heq ?_ ?_
      · simp only [htext, floatText, hnone, hinfinite, Bool.false_eq_true, if_false, if_true]
      · simp only [shown, hfloat, hnone, hinfinite, Bool.false_eq_true, if_false, if_true]
    · have hsome : s.kind.format.isNaN s.bits = true := decide_eq_true hgt
      refine .pattern hfloat ?_ ?_
      · simp only [htext, floatText, hsome, if_true]
      · simp only [shown, hfloat, hsome, if_true]

/-- The text of a scalar is that of what it shows. -/
theorem text_eq (s : Scalar) : s.text = s.shown.text := by
  cases s.displays with
  | integer _ htext hshown => rw [htext, hshown, Shown.text]
  | pattern _ htext hshown => rw [htext, hshown, Shown.text]
  | infinity _ _ htext hshown => rw [htext, hshown, Shown.text]
  | finite _ hfinite htext hshown =>
    rw [htext, hshown, Shown.text, DecimalStyle.finite]
    by_cases hzero : s.kind.format.magnitude s.bits = 0
    · simp only [hzero, Decimal.shortest_zero s.format_precision_pos, if_true]
    · have hlast := Decimal.shortest_digits_mod_ten s.format_precision_pos floatStyle.tie hzero hfinite
      have hne : (Decimal.shortest s.kind.format floatStyle.tie
          (s.kind.format.magnitude s.bits)).digits ≠ 0 := fun h => hlast (by rw [h])
      simp only [if_neg hzero, if_neg hne]

/-- What is shown of a scalar gives back its pattern, once the kind is known. -/
theorem bits_shown (s : Scalar) : s.shown.bits s.kind = s.bits := by
  have hsigned : s.kind.isFloat = true → s.kind.format.withSign (s.kind.format.isNegative s.bits)
      (s.kind.format.magnitude s.bits) = s.bits := fun hfloat =>
    FloatFormat.withSign_isNegative_magnitude (ScalarKind.modulus_eq_of_isFloat hfloat ▸ s.fits)
  cases s.displays with
  | integer _ _ hshown => rw [hshown, Shown.bits, toInt_emod, Int.toNat_natCast]
  | pattern _ _ hshown => rw [hshown, Shown.bits]
  | infinity hfloat hinfinite _ hshown => rw [hshown, Shown.bits, ← hinfinite, hsigned hfloat]
  | finite hfloat hfinite _ hshown =>
    rw [hshown, Shown.bits, Decimal.read_shortest s.format_precision_pos _ hfinite, hsigned hfloat]

/-- Two scalars of one kind that show the same are the same. -/
theorem eq_of_shown_eq {a b : Scalar} (hkind : a.kind = b.kind) (h : a.shown = b.shown) : a = b := by
  have hbits : a.bits = b.bits := by rw [← a.bits_shown, ← b.bits_shown, hkind, h]
  cases a
  cases b
  cases hkind
  cases hbits
  rfl

/-- The kind is shown of integers only. -/
theorem kind?_shown (s : Scalar) :
    s.shown.kind? = if s.kind.isFloat then none else some s.kind := by
  cases s.displays with
  | integer hkind _ hshown =>
    rw [hkind, hshown]
    rfl
  | pattern hkind _ hshown =>
    rw [hkind, hshown]
    rfl
  | infinity hkind _ _ hshown =>
    rw [hkind, hshown]
    rfl
  | finite hkind _ _ hshown =>
    rw [hkind, hshown]
    rfl

/-- Two scalars that show the same are of one kind, or floats of the two widths. -/
theorem kind_of_shown_eq {a b : Scalar} (h : a.shown = b.shown) :
    a.kind = b.kind ∨ a.kind = .f32 ∧ b.kind = .f64 ∨ a.kind = .f64 ∧ b.kind = .f32 := by
  have hkind := a.kind?_shown
  rw [h, b.kind?_shown] at hkind
  cases ha : a.kind.isFloat with
  | false =>
    cases hb : b.kind.isFloat with
    | false =>
      rw [ha, hb] at hkind
      exact Or.inl (Option.some.inj hkind).symm
    | true =>
      rw [ha, hb] at hkind
      cases hkind
  | true =>
    cases hb : b.kind.isFloat with
    | false =>
      rw [ha, hb] at hkind
      cases hkind
    | true =>
      rcases ScalarKind.eq_of_isFloat ha with ha | ha <;>
        rcases ScalarKind.eq_of_isFloat hb with hb | hb <;> simp [ha, hb]

/-- What a scalar shows is read back from its text. -/
theorem ofText?_text (s : Scalar) : Shown.ofText? s.text.toList = some s.shown := by
  cases s.displays with
  | integer hkind htext hshown => rw [htext, hshown, Shown.ofText?_integer hkind]
  | pattern _ htext hshown =>
    have hfits : s.bits < 256 ^ s.kind.width := s.fits
    have hbits : s.bits < 16 ^ (2 * s.kind.width) := by
      rw [Nat.pow_mul]
      exact hfits
    rw [htext, hshown, Shown.ofText?_pattern hbits]
  | infinity _ _ htext hshown =>
    rw [htext, hshown]
    cases s.kind.format.isNegative s.bits <;> rfl
  | finite _ hfinite htext hshown =>
    rw [htext, hshown, Shown.ofText?_finite s.format_precision_pos hfinite]

/-- Two scalars have one text exactly if they show the same. -/
theorem text_eq_text_iff {a b : Scalar} : a.text = b.text ↔ a.shown = b.shown := by
  refine ⟨fun h => ?_, fun h => ?_⟩
  · rw [← Option.some.injEq, ← a.ofText?_text, h, b.ofText?_text]
  · rw [a.text_eq, h, ← b.text_eq]

/-- The text of a scalar begins with a digit, a mark of numbers or one of three letters. -/
theorem mem_of_mem_head?_text (s : Scalar) {c : Char} (hc : c ∈ s.text.toList.head?) :
    c.isDigit = true ∨ c ∈ ['-', '+', '.', 'e', 'u', 'i', 'N'] := by
  cases s.displays with
  | integer hkind htext _ =>
    rw [htext] at hc
    refine (Shown.mem_integer hkind (List.mem_of_mem_head? hc)).imp id fun h => ?_
    exact (by simp : ∀ x ∈ ['-', 'u', 'i'], x ∈ ['-', '+', '.', 'e', 'u', 'i', 'N']) c h
  | pattern _ htext _ =>
    obtain rfl : 'N' = c := by simpa [htext] using hc
    exact Or.inr (by simp)
  | infinity _ _ htext _ =>
    rw [htext] at hc
    split at hc
    · obtain rfl : '-' = c := by simpa using hc
      exact Or.inr (by simp)
    · obtain rfl : 'i' = c := by simpa using hc
      exact Or.inr (by simp)
  | finite _ hfinite htext _ =>
    rw [htext] at hc
    refine (floatStyle.mem_finite s.format_precision_pos hfinite c (List.mem_of_mem_head? hc)).imp id
      fun h => ?_
    exact (by simp : ∀ x ∈ ['.', 'e', '-', '+'], x ∈ ['-', '+', '.', 'e', 'u', 'i', 'N']) c h

end Scalar

end WireParity
