import WireParity.Number.DecimalText
import WireParity.Proofs.Number.Shortest
import Mathlib.Data.List.TakeWhile
import Mathlib.Data.Nat.Digits.Defs

/-!
# Decimal text read back

A decimal is written with a point, with an exponent or with both, and `Decimal.ofText` reads all of them
in one way: the digits on both sides of the point are one number, the places after it are taken off the
exponent, and zeros at the end do not count. What a style writes for a decimal without such zeros is
therefore read back, whatever the style, and so the text tells the decimal.
-/

namespace WireParity

namespace Numeral

/-- The integer of digits that may have a sign before them. -/
def integerOf : List Char → Int
  | '-' :: digits => -(Nat.ofDigitChars 10 digits 0 : Int)
  | '+' :: digits => (Nat.ofDigitChars 10 digits 0 : Int)
  | digits => (Nat.ofDigitChars 10 digits 0 : Int)

/-- What stands before the first mark of a text. -/
def upTo (mark : Char) (text : List Char) : List Char := text.takeWhile (· != mark)

/-- What stands behind the first mark of a text. -/
def beyond (mark : Char) (text : List Char) : List Char := (text.dropWhile (· != mark)).drop 1

/-- A decimal digit is not a sign. -/
theorem ne_of_isDigit {c : Char} (hc : c.isDigit = true) : c ≠ '-' ∧ c ≠ '+' := by
  constructor <;> rintro rfl <;> cases hc

/-- The digits of a number are digits. -/
theorem isDigit_of_mem_toDigits {n : Nat} {c : Char} (hc : c ∈ Nat.toDigits 10 n) :
    c.isDigit = true := Nat.isDigit_of_mem_toDigits (by decide) (by decide) hc

section Marks

variable {mark : Char} {front : List Char}

/-- A text without a mark is all before it, and nothing is behind. -/
theorem upTo_beyond_of_notMem (h : mark ∉ front) : upTo mark front = front ∧ beyond mark front = [] := by
  have hfront : ∀ c ∈ front, (c != mark) = true := fun c hc => bne_iff_ne.mpr fun heq => h (heq ▸ hc)
  refine ⟨List.takeWhile_eq_self_iff.mpr hfront, ?_⟩
  rw [beyond, List.dropWhile_eq_nil_iff.mpr hfront]
  rfl

/-- The first mark splits a text. -/
theorem upTo_beyond_append (h : mark ∉ front) (back : List Char) :
    upTo mark (front ++ mark :: back) = front ∧ beyond mark (front ++ mark :: back) = back := by
  have hfront : ∀ c ∈ front, (c != mark) = true := fun c hc => bne_iff_ne.mpr fun heq => h (heq ▸ hc)
  constructor
  · rw [upTo, List.takeWhile_append_of_pos hfront, List.takeWhile_cons_of_neg (by simp),
      List.append_nil]
  · rw [beyond, List.dropWhile_append_of_pos hfront, List.dropWhile_cons_of_neg (by simp)]
    rfl

end Marks

/-- Digits alone are a natural. -/
theorem integerOf_toDigits (n : Nat) : integerOf (Nat.toDigits 10 n) = n := by
  unfold integerOf
  split
  · next digits hdigits =>
    have hminus : '-' ∈ Nat.toDigits 10 n := hdigits ▸ List.mem_cons_self
    exact absurd rfl (ne_of_isDigit (isDigit_of_mem_toDigits hminus)).1
  · next digits hdigits =>
    have hplus : '+' ∈ Nat.toDigits 10 n := hdigits ▸ List.mem_cons_self
    exact absurd rfl (ne_of_isDigit (isDigit_of_mem_toDigits hplus)).2
  · rw [Nat.ofDigitChars_ten_toDigits]

/-- A natural is told by its text. -/
theorem eq_of_toString_eq {m n : Nat} (h : toString m = toString n) : m = n := by
  rw [Nat.toString_eq_ofList_toDigits, Nat.toString_eq_ofList_toDigits, String.ofList_inj] at h
  rw [← Nat.ofDigitChars_ten_toDigits (n := m), h, Nat.ofDigitChars_ten_toDigits]

/-- The text of an integer is its digits, with a minus sign before those of a negative one. -/
theorem toList_toString (n : Int) :
    (toString n).toList =
      if n < 0 then '-' :: Nat.toDigits 10 n.natAbs else Nat.toDigits 10 n.natAbs := by
  show n.repr.toList = _
  rw [Int.repr_eq_if]
  by_cases hneg : n < 0
  · rw [if_neg (Int.not_le.mpr hneg), if_pos hneg, String.toList_append, Nat.toList_repr,
      show (-n).toNat = n.natAbs by omega]
    rfl
  · rw [if_pos (Int.not_lt.mp hneg), if_neg hneg, Nat.toList_repr,
      show n.toNat = n.natAbs by omega]

/-- An integer is read back from its text. -/
theorem integerOf_toString (n : Int) : integerOf (toString n).toList = n := by
  rw [toList_toString]
  by_cases hneg : n < 0
  · rw [if_pos hneg]
    show -(Nat.ofDigitChars 10 (Nat.toDigits 10 n.natAbs) 0 : Int) = n
    rw [Nat.ofDigitChars_ten_toDigits]
    omega
  · rw [if_neg hneg, integerOf_toDigits]
    omega

/-- A plus sign before a positive integer makes no difference. -/
theorem integerOf_plus {n : Int} (hpos : 0 < n) : integerOf ('+' :: (toString n).toList) = n := by
  rw [toList_toString, if_neg (by omega)]
  show (Nat.ofDigitChars 10 (Nat.toDigits 10 n.natAbs) 0 : Int) = n
  rw [Nat.ofDigitChars_ten_toDigits]
  omega

/-- The text of an integer is digits and a minus sign. -/
theorem mem_toString {n : Int} {c : Char} (hc : c ∈ (toString n).toList) :
    c.isDigit = true ∨ c = '-' := by
  rw [toList_toString] at hc
  by_cases hneg : n < 0
  · rw [if_pos hneg, List.mem_cons] at hc
    exact hc.symm.imp isDigit_of_mem_toDigits id
  · rw [if_neg hneg] at hc
    exact Or.inl (isDigit_of_mem_toDigits hc)

end Numeral

open Numeral

namespace Decimal

/-- The decimal of digits with perhaps a point, moved by an exponent. -/
def ofMantissa (mantissa : List Char) (exponent : Int) : Decimal :=
  let fraction := beyond '.' mantissa
  trim (Nat.ofDigitChars 10 (upTo '.' mantissa ++ fraction) 0) (exponent - fraction.length)

/-- The decimal that a text denotes, without zeros at its end. -/
def ofText (text : List Char) : Decimal := ofMantissa (upTo 'e' text) (integerOf (beyond 'e' text))

section Mantissa

variable {digits : Nat} (hlast : digits % 10 ≠ 0)

include hlast

/-- Digits may stand on both sides of the point, with zeros to fill up. -/
theorem ofMantissa_point {whole fraction : List Char} (hwhole : '.' ∉ whole) (k : Nat)
    (hvalue : Nat.ofDigitChars 10 (whole ++ fraction) 0 = digits * 10 ^ k) (exponent : Int) :
    ofMantissa (whole ++ '.' :: fraction) exponent = ⟨digits, exponent - fraction.length + k⟩ := by
  obtain ⟨hupTo, hbeyond⟩ := upTo_beyond_append hwhole fraction
  rw [ofMantissa, hupTo, hbeyond, hvalue, trim_mul_pow hlast]

/-- Digits may do without a point. -/
theorem ofMantissa_digits {whole : List Char} (hwhole : '.' ∉ whole)
    (hvalue : Nat.ofDigitChars 10 whole 0 = digits) (exponent : Int) :
    ofMantissa whole exponent = ⟨digits, exponent⟩ := by
  obtain ⟨hupTo, hbeyond⟩ := upTo_beyond_of_notMem hwhole
  have htrim := trim_mul_pow hlast 0 exponent
  rw [Nat.pow_zero, Nat.mul_one, Int.natCast_zero, Int.add_zero] at htrim
  rw [ofMantissa, hupTo, hbeyond, List.append_nil, hvalue, List.length_nil, Int.natCast_zero,
    Int.sub_zero, htrim]

end Mantissa

end Decimal

namespace DecimalStyle

/-- A decimal that is written out has its digits on both sides of a point, with zeros to fill up. -/
theorem toList_positional (digits : List Char) (point : Int) :
    ∃ whole fraction, (positional digits point).toList = whole ++ '.' :: fraction ∧
      (∀ c ∈ whole ++ fraction, c ∈ digits ∨ c = '0') ∧
      ∃ k : Nat, Nat.ofDigitChars 10 (whole ++ fraction) 0 = Nat.ofDigitChars 10 digits 0 * 10 ^ k ∧
        -(fraction.length : Int) + k = point - digits.length := by
  unfold positional zeros
  split
  next hpoint =>
    refine ⟨['0'], List.replicate point.natAbs '0' ++ digits, ?_, ?_, 0, ?_, ?_⟩
    · simp
    · simp only [List.mem_append, List.mem_singleton, List.mem_replicate]
      rintro c (hc | ⟨-, hc⟩ | hc)
      · exact Or.inr hc
      · exact Or.inr hc
      · exact Or.inl hc
    · rw [List.singleton_append, Nat.ofDigitChars_cons, Nat.ofDigitChars_append,
        Nat.ofDigitChars_replicate_zero]
      simp
    · rw [List.length_append, List.length_replicate]
      omega
  next hpoint =>
    split
    next hlength =>
      refine ⟨digits ++ List.replicate (point.toNat - digits.length) '0', ['0'], ?_, ?_,
        point.toNat - digits.length + 1, ?_, ?_⟩
      · simp
      · simp only [List.mem_append, List.mem_singleton, List.mem_replicate]
        rintro c ((hc | ⟨-, hc⟩) | hc)
        · exact Or.inl hc
        · exact Or.inr hc
        · exact Or.inr hc
      · rw [List.append_assoc, Nat.ofDigitChars_append,
          show ['0'] = List.replicate 1 '0' from rfl, List.replicate_append_replicate,
          Nat.ofDigitChars_replicate_zero, Nat.mul_comm]
      · rw [List.length_singleton]
        omega
    next hlength =>
      refine ⟨digits.take point.toNat, digits.drop point.toNat, ?_, ?_, 0, ?_, ?_⟩
      · simp
      · rw [List.take_append_drop]
        exact fun c hc => Or.inl hc
      · rw [List.take_append_drop, Nat.pow_zero, Nat.mul_one]
      · rw [List.length_drop]
        omega

/-- A decimal with an exponent has a first digit, the others behind a point, if there are any, and the
exponent with perhaps a sign. -/
theorem toList_scientific (style : DecimalStyle) (first : Char) (rest : List Char) (point : Int) :
    ∃ exponent, (style.scientific (first :: rest) point).toList =
        first :: ((if rest = [] then [] else '.' :: rest) ++ 'e' :: exponent) ∧
      (∀ c ∈ exponent, c.isDigit = true ∨ c = '-' ∨ c = '+') ∧ integerOf exponent = point - 1 := by
  have htext : ∀ c ∈ (toString (point - 1)).toList, c.isDigit = true ∨ c = '-' ∨ c = '+' :=
    fun c hc => (mem_toString hc).imp id Or.inl
  unfold scientific
  dsimp only
  by_cases hplus : style.plusSign ∧ 0 < point - 1
  · rw [if_pos hplus]
    refine ⟨'+' :: (toString (point - 1)).toList, ?_, ?_, integerOf_plus hplus.2⟩
    · cases rest <;> simp
    · rw [List.forall_mem_cons]
      exact ⟨Or.inr (Or.inr rfl), htext⟩
  · rw [if_neg hplus]
    refine ⟨(toString (point - 1)).toList, ?_, htext, integerOf_toString _⟩
    cases rest <;> simp

section Digits

variable {digits : List Char} (hdigits : ∀ c ∈ digits, c.isDigit = true) {point : Int}

include hdigits

/-- A decimal that is written out has nothing but digits and a point. -/
theorem mem_positional : ∀ c ∈ (positional digits point).toList, c.isDigit = true ∨ c = '.' := by
  obtain ⟨whole, fraction, htext, hmem, -⟩ := toList_positional digits point
  have hparts : ∀ c ∈ whole ++ fraction, c.isDigit = true := by
    intro c hc
    rcases hmem c hc with h | rfl
    · exact hdigits c h
    · rfl
  intro c hc
  rw [htext, List.mem_append, List.mem_cons] at hc
  rcases hc with hc | rfl | hc
  · exact Or.inl (hparts c (List.mem_append_left _ hc))
  · exact Or.inr rfl
  · exact Or.inl (hparts c (List.mem_append_right _ hc))

/-- A decimal with an exponent begins with a digit, and what comes after it are digits and marks. -/
theorem mem_scientific (style : DecimalStyle) (hne : digits ≠ []) :
    (∀ c ∈ (style.scientific digits point).toList.head?, c.isDigit = true) ∧
      ∀ c ∈ (style.scientific digits point).toList, c.isDigit = true ∨ c ∈ ['.', 'e', '-', '+'] := by
  obtain ⟨first, rest, rfl⟩ := List.exists_cons_of_ne_nil hne
  obtain ⟨exponent, htext, hmem, -⟩ := style.toList_scientific first rest point
  rw [List.forall_mem_cons] at hdigits
  rw [htext]
  refine ⟨fun c hc => (Option.some.inj hc) ▸ hdigits.1, ?_⟩
  have hfraction : ∀ c ∈ (if rest = [] then [] else '.' :: rest), c.isDigit = true ∨ c = '.' := by
    split
    · simp
    · rw [List.forall_mem_cons]
      exact ⟨Or.inr rfl, fun c hc => Or.inl (hdigits.2 c hc)⟩
  simp only [List.forall_mem_cons, List.forall_mem_append]
  refine ⟨Or.inl hdigits.1, fun c hc => ?_, by simp, fun c hc => ?_⟩
  · rcases hfraction c hc with h | rfl
    · exact Or.inl h
    · simp
  · rcases hmem c hc with h | rfl | rfl
    · exact Or.inl h
    · simp
    · simp

section Reading

variable {n : Nat} (hlast : n % 10 ≠ 0) (hvalue : Nat.ofDigitChars 10 digits 0 = n)

include hlast hvalue

/-- What is written out is read back. -/
theorem ofText_positional :
    Decimal.ofText (positional digits point).toList = ⟨n, point - digits.length⟩ := by
  obtain ⟨whole, fraction, htext, hmem, k, hshifted, hexponent⟩ := toList_positional digits point
  have he : 'e' ∉ whole ++ '.' :: fraction := by
    rw [← htext]
    intro h
    rcases mem_positional hdigits 'e' h with h | h <;> cases h
  have hwhole : '.' ∉ whole := by
    intro h
    rcases hmem '.' (List.mem_append_left _ h) with h | h
    · cases hdigits '.' h
    · cases h
  obtain ⟨hupTo, hbeyond⟩ := upTo_beyond_of_notMem he
  rw [hvalue] at hshifted
  rw [Decimal.ofText, htext, hupTo, hbeyond, Decimal.ofMantissa_point hlast hwhole k hshifted,
    ← hexponent, ← Int.zero_sub]
  rfl

/-- What is written with an exponent is read back. -/
theorem ofText_scientific (style : DecimalStyle) (hne : digits ≠ []) :
    Decimal.ofText (style.scientific digits point).toList = ⟨n, point - digits.length⟩ := by
  obtain ⟨first, rest, rfl⟩ := List.exists_cons_of_ne_nil hne
  obtain ⟨exponent, htext, -, hexponent⟩ := style.toList_scientific first rest point
  rw [List.forall_mem_cons] at hdigits
  have hfirst : ∀ mark, mark.isDigit = false → mark ∉ [first] := by
    intro mark hmark h
    rw [List.mem_singleton.mp h, hdigits.1] at hmark
    cases hmark
  rw [Decimal.ofText, htext, ← List.cons_append]
  cases rest with
  | nil =>
    obtain ⟨hupTo, hbeyond⟩ := upTo_beyond_append (hfirst 'e' rfl) exponent
    rw [if_pos rfl, hupTo, hbeyond, hexponent,
      Decimal.ofMantissa_digits hlast (hfirst '.' rfl) hvalue, List.length_singleton]
    rfl
  | cons second rest =>
    have he : 'e' ∉ first :: '.' :: second :: rest := by
      rw [List.mem_cons, List.mem_cons]
      rintro (h | h | h)
      · exact hfirst 'e' rfl (List.mem_singleton.mpr h)
      · cases h
      · cases hdigits.2 'e' h
    obtain ⟨hupTo, hbeyond⟩ := upTo_beyond_append he exponent
    have hshifted : Nat.ofDigitChars 10 ([first] ++ second :: rest) 0 = n * 10 ^ 0 := by
      rwa [Nat.pow_zero, Nat.mul_one]
    have hmantissa := Decimal.ofMantissa_point hlast (hfirst '.' rfl) 0 hshifted (point - 1)
    rw [if_neg (List.cons_ne_nil _ _), hupTo, hbeyond, hexponent]
    refine hmantissa.trans ?_
    congr 1
    rw [List.length_cons (a := first)]
    omega

end Reading

end Digits

/-- The text of a decimal begins with a digit or a point, and goes on with digits and marks. -/
theorem mem_decimal (style : DecimalStyle) (d : Decimal) :
    (∀ c ∈ (style.decimal d).toList.head?, c.isDigit = true ∨ c = '.') ∧
      ∀ c ∈ (style.decimal d).toList, c.isDigit = true ∨ c ∈ ['.', 'e', '-', '+'] := by
  have hdigits : ∀ c ∈ Nat.toDigits 10 d.digits, c.isDigit = true := fun _ => isDigit_of_mem_toDigits
  unfold decimal
  dsimp only
  split
  · refine ⟨fun c hc => mem_positional hdigits c (List.mem_of_mem_head? hc), fun c hc => ?_⟩
    rcases mem_positional hdigits c hc with h | rfl
    · exact Or.inl h
    · simp
  · obtain ⟨hhead, hmem⟩ := mem_scientific hdigits style Nat.toDigits_ne_nil
    exact ⟨fun c hc => Or.inl (hhead c hc), hmem⟩

/-- A decimal without zeros at its end is read back, in whatever style it is written. -/
theorem ofText_decimal (style : DecimalStyle) {d : Decimal} (hlast : d.digits % 10 ≠ 0) :
    Decimal.ofText (style.decimal d).toList = d := by
  have hdigits : ∀ c ∈ Nat.toDigits 10 d.digits, c.isDigit = true := fun _ => isDigit_of_mem_toDigits
  have hvalue : Nat.ofDigitChars 10 (Nat.toDigits 10 d.digits) 0 = d.digits :=
    Nat.ofDigitChars_ten_toDigits
  have hexponent : ((Nat.toDigits 10 d.digits).length + d.exponent : Int) -
      (Nat.toDigits 10 d.digits).length = d.exponent := by omega
  unfold decimal
  dsimp only
  split
  · rw [ofText_positional hdigits hlast hvalue, hexponent]
  · rw [ofText_scientific hdigits hlast hvalue style Nat.toDigits_ne_nil, hexponent]

section Finite

variable {f : FloatFormat} {bits : Nat}

/-- A finite float is its sign and its shortest decimal, which can be read off the text. -/
theorem exists_finite (style : DecimalStyle) (hprecision : 0 < f.precision)
    (hfinite : f.magnitude bits < f.infinity) :
    ∃ unsigned, (style.finite f bits).toList =
        (if f.isNegative bits then ['-'] else []) ++ unsigned ∧
      (∀ c ∈ unsigned.head?, c.isDigit = true ∨ c = '.') ∧
      (∀ c ∈ unsigned, c.isDigit = true ∨ c ∈ ['.', 'e', '-', '+']) ∧
      Decimal.ofText unsigned = Decimal.shortest f style.tie (f.magnitude bits) := by
  have hsign : (if f.isNegative bits then "-" else "").toList =
      if f.isNegative bits then ['-'] else [] := by
    split <;> rfl
  unfold finite
  dsimp only
  by_cases hzero : f.magnitude bits = 0
  · refine ⟨['0', '.', '0'], ?_, fun c hc => ?_, fun c hc => ?_, ?_⟩
    · rw [if_pos hzero, String.toList_append, hsign]
      rfl
    · cases hc
      exact Or.inl rfl
    · obtain rfl | rfl | rfl : c = '0' ∨ c = '.' ∨ c = '0' := by simpa using hc
      · exact Or.inl rfl
      · exact Or.inr List.mem_cons_self
      · exact Or.inl rfl
    · rw [hzero, Decimal.shortest_zero hprecision]
      show Decimal.trim 0 (0 - 1) = _
      rw [Decimal.trim, dif_neg fun h => h.1 rfl]
      rfl
  · have hlast := Decimal.shortest_digits_mod_ten hprecision style.tie hzero hfinite
    obtain ⟨hhead, hmem⟩ := style.mem_decimal (Decimal.shortest f style.tie (f.magnitude bits))
    refine ⟨_, ?_, hhead, hmem, style.ofText_decimal hlast⟩
    rw [if_neg hzero, String.toList_append, hsign]

/-- The text of a finite float is digits and marks. -/
theorem mem_finite (style : DecimalStyle) (hprecision : 0 < f.precision)
    (hfinite : f.magnitude bits < f.infinity) :
    ∀ c ∈ (style.finite f bits).toList, c.isDigit = true ∨ c ∈ ['.', 'e', '-', '+'] := by
  obtain ⟨unsigned, htext, -, hmem, -⟩ := style.exists_finite hprecision hfinite
  intro c hc
  rw [htext, List.mem_append] at hc
  rcases hc with hc | hc
  · split at hc
    · rw [List.mem_singleton.mp hc]
      exact Or.inr (by decide)
    · cases hc
  · exact hmem c hc

end Finite

end DecimalStyle

end WireParity
