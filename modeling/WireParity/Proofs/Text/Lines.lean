import WireParity.Proofs.Bytes.Hex
import WireParity.Proofs.Number.DecimalText
import WireParity.Text.Parts
import Mathlib.Algebra.BigOperators.Group.List.Basic

/-!
# Texts that are joined and cut again

Texts that are joined by a separator are cut at it into their own pieces, one after another. They
come back as they were exactly if none of them has the separator in it. For line breaks, `Unbroken`
says so of a text; numerals are unbroken, and so is whatever is put together from unbroken texts.
-/

namespace WireParity.Text

variable {separator : Char} {text : String} {lines : List String}

/-- There is always a piece. -/
theorem pieces_ne_nil (chars : List Char) : pieces separator chars ≠ [] := by
  induction chars with
  | nil => exact List.cons_ne_nil _ _
  | cons c rest ih =>
    rw [pieces]
    split
    · exact List.cons_ne_nil _ _
    · split <;> exact List.cons_ne_nil _ _

/-- There is one more piece than there are separators. -/
theorem length_pieces (chars : List Char) :
    (pieces separator chars).length = chars.count separator + 1 := by
  induction chars with
  | nil => rfl
  | cons c rest ih =>
    rw [pieces]
    split
    · rename_i hsame
      rw [hsame, List.length_cons, ih, List.count_cons_self]
    · rename_i hne
      rw [List.count_cons_of_ne hne, ← ih]
      cases hpieces : pieces separator rest with
      | nil => exact absurd hpieces (pieces_ne_nil rest)
      | cons piece others => rfl

/-- Characters with no separator among them are one piece. -/
theorem pieces_of_notMem {chars : List Char} (h : separator ∉ chars) :
    pieces separator chars = [chars] := by
  induction chars with
  | nil => rfl
  | cons c rest ih =>
    rw [List.mem_cons, not_or] at h
    rw [pieces, if_neg (Ne.symm h.1), ih h.2]

/-- What comes before a separator and what comes after it have their own pieces. -/
theorem pieces_append_cons (front back : List Char) :
    pieces separator (front ++ separator :: back) =
      pieces separator front ++ pieces separator back := by
  induction front with
  | nil => simp [pieces]
  | cons c rest ih =>
    rw [List.cons_append, pieces, pieces, ih]
    split
    · rfl
    · cases hpieces : pieces separator rest with
      | nil => exact absurd hpieces (pieces_ne_nil rest)
      | cons piece others => rfl

/-- Joined by separators, lists of characters have their own pieces. -/
theorem pieces_intercalate {parts : List (List Char)} (hparts : parts ≠ []) :
    pieces separator (List.intercalate [separator] parts) = parts.flatMap (pieces separator) := by
  induction parts with
  | nil => exact absurd rfl hparts
  | cons part rest ih =>
    cases rest with
    | nil => simp
    | cons next rest =>
      rw [List.intercalate_cons_cons, List.append_assoc, List.singleton_append, pieces_append_cons,
        ih (List.cons_ne_nil _ _)]
      rfl

/-- Joined by line breaks, texts have their own lines. -/
theorem splitOn_intercalate (hlines : lines ≠ []) :
    splitOn '\n' ("\n".intercalate lines) = lines.flatMap (splitOn '\n') := by
  have hparts : lines.map String.toList ≠ [] := fun h => hlines (List.map_eq_nil_iff.mp h)
  rw [splitOn, String.toList_intercalate]
  change (pieces '\n' (List.intercalate ['\n'] _)).map String.ofList = _
  rw [pieces_intercalate hparts, List.flatMap_map, List.map_flatMap]
  rfl

/-- A text has one more line than it has line breaks. -/
theorem length_splitOn (text : String) :
    (splitOn separator text).length = text.toList.count separator + 1 := by
  rw [splitOn, List.length_map, length_pieces]

/-- A text has no line break in it. -/
def Unbroken (text : String) : Prop := '\n' ∉ text.toList

instance (text : String) : Decidable (Unbroken text) :=
  inferInstanceAs (Decidable ('\n' ∉ text.toList))

/-- An unbroken text is its only line. -/
theorem Unbroken.splitOn_eq (h : Unbroken text) : splitOn '\n' text = [text] := by
  rw [splitOn, pieces_of_notMem h, List.map_singleton, String.ofList_toList]

/-- Joined texts have a line each, and one more for every line break in them. -/
theorem length_splitOn_intercalate (hlines : lines ≠ []) :
    (splitOn '\n' ("\n".intercalate lines)).length =
      lines.length + (lines.map fun line => line.toList.count '\n').sum := by
  rw [splitOn_intercalate hlines, List.length_flatMap]
  simp only [length_splitOn, List.sum_map_add, List.map_const', List.sum_replicate_nat, Nat.mul_one]
  exact Nat.add_comm _ _

/-- There are as many lines as texts were joined exactly if all are unbroken. -/
theorem length_splitOn_intercalate_eq_iff (hlines : lines ≠ []) :
    (splitOn '\n' ("\n".intercalate lines)).length = lines.length ↔
      ∀ line ∈ lines, Unbroken line := by
  rw [length_splitOn_intercalate hlines, Nat.add_eq_left, List.sum_eq_zero_iff_forall_eq_nat,
    List.forall_mem_map]
  exact forall₂_congr fun line _ => List.count_eq_zero

/-- The lines are the texts that were joined exactly if all of these are unbroken. -/
theorem splitOn_intercalate_eq_iff (hlines : lines ≠ []) :
    splitOn '\n' ("\n".intercalate lines) = lines ↔ ∀ line ∈ lines, Unbroken line := by
  refine ⟨fun h => ?_, fun h => ?_⟩
  · exact (length_splitOn_intercalate_eq_iff hlines).mp (congrArg List.length h)
  · rw [splitOn_intercalate hlines, List.flatMap_congr fun line hline => (h line hline).splitOn_eq]
    simp

/-- Nothing is broken about no text. -/
@[simp] theorem unbroken_empty : Unbroken "" := List.not_mem_nil

/-- A text is unbroken if its parts are. -/
@[simp] theorem unbroken_append {front back : String} :
    Unbroken (front ++ back) ↔ Unbroken front ∧ Unbroken back := by
  rw [Unbroken, String.toList_append, List.mem_append, not_or]
  rfl

/-- A text as text is itself. -/
@[simp] theorem unbroken_toString : Unbroken (toString text) ↔ Unbroken text := Iff.rfl

/-- Of an unbroken text nothing more is to be said. For literals, the premise is decided. -/
theorem Unbroken.iff_true (h : Unbroken text) : Unbroken text ↔ True := iff_true_intro h

/-- Texts that are joined by an unbroken one are unbroken together if each is. -/
theorem unbroken_intercalate {separator : String} (hseparator : Unbroken separator) :
    Unbroken (separator.intercalate lines) ↔ ∀ line ∈ lines, Unbroken line := by
  induction lines with
  | nil => simp
  | cons line rest ih =>
    cases rest with
    | nil => simp
    | cons next rest =>
      rw [String.intercalate_cons_cons, unbroken_append, unbroken_append, ih]
      simp [hseparator]

/-- A text of characters that are no line breaks is unbroken. -/
theorem unbroken_ofList {chars : List Char} (h : ∀ c ∈ chars, c ≠ '\n') :
    Unbroken (String.ofList chars) := by
  rw [Unbroken, String.toList_ofList]
  exact fun hmem => h _ hmem rfl

/-- A character that is no line break is none however often it is there. -/
theorem unbroken_replicate (n : Nat) {c : Char} (hc : c ≠ '\n') :
    Unbroken (String.ofList (List.replicate n c)) :=
  unbroken_ofList fun _ hother => List.eq_of_mem_replicate hother ▸ hc

/-- The digits of a number are unbroken. -/
theorem unbroken_toDigits (n : Nat) : Unbroken (String.ofList (Nat.toDigits 10 n)) := by
  refine unbroken_ofList fun c hc => ?_
  rintro rfl
  cases Numeral.isDigit_of_mem_toDigits hc

/-- A numeral is unbroken. -/
@[simp] theorem unbroken_repr (n : Nat) : Unbroken n.repr := by
  rw [← Nat.toString_eq_repr, Nat.toString_eq_ofList_toDigits]
  exact unbroken_toDigits n

/-- A number with decimal places is unbroken. -/
@[simp] theorem unbroken_fixedPlaces (places num den : Nat) :
    Unbroken (fixedPlaces places num den) := by
  have hpoint : Unbroken "." := by decide
  have hzeros (n : Nat) : Unbroken (zeros n) := unbroken_replicate n (by decide)
  simp [fixedPlaces, hpoint, hzeros, unbroken_toDigits]

/-- The digits of a byte are unbroken. -/
@[simp] theorem unbroken_upperByte (b : UInt8) : Unbroken (Hex.upperByte b) := by
  have hdigit : ∀ n < 16, (Hex.digit n).toUpper ≠ '\n' := by decide
  have hlow : b.toNat / 16 < 16 := Nat.div_lt_of_lt_mul b.toNat_lt
  have hhigh : b.toNat % 16 < 16 := Nat.mod_lt _ (by decide)
  refine unbroken_ofList (List.forall_mem_map.mpr ?_)
  simp only [Hex.byteDigits, List.forall_mem_cons, List.not_mem_nil, false_implies, implies_true,
    and_true]
  exact ⟨hdigit _ hlow, hdigit _ hhigh⟩

end WireParity.Text
