import WireParity.Bytes.Hex
import WireParity.Text.Blank
import Mathlib.Algebra.Group.Nat.Defs

/-!
# Hexadecimal words and byte strings read back

A word is written with a fixed number of digits, so the leading ones may be zeros. Reading starts at
the most significant digit and carries on with what it has, which is why `number?_lowDigits` speaks
of any start. None of the digits is a sign or an underscore, so the readers that allow for those
take a written word as it is. Byte strings are written with two digits for each byte, none of which
is blank or takes more than one octet.
-/

namespace WireParity.Hex

/-- A digit stands for its number. -/
theorem digitValue?_digit : ∀ n < 16, digitValue? (digit n) = some n := by
  decide

/-- No digit is a plus sign, an underscore or a bracket. -/
theorem digit_ne : ∀ n < 16, digit n ≠ '+' ∧ digit n ≠ '_' ∧ digit n ≠ ')' := by
  decide

/-- A word is written in digits only. -/
theorem exists_digit_of_mem_lowDigits {width n : Nat} {c : Char} (hc : c ∈ lowDigits width n) :
    ∃ d < 16, c = digit d := by
  induction width generalizing n with
  | zero => cases hc
  | succ width ih =>
    rw [lowDigits, List.mem_cons] at hc
    rcases hc with rfl | hc
    · exact ⟨n % 16, Nat.mod_lt n (by decide), rfl⟩
    · exact ih hc

/-- A word has no signs, no underscores and no brackets. -/
theorem ne_of_mem_lowDigits {width n : Nat} {c : Char} (hc : c ∈ lowDigits width n) :
    c ≠ '+' ∧ c ≠ '_' ∧ c ≠ ')' := by
  obtain ⟨d, hd, rfl⟩ := exists_digit_of_mem_lowDigits hc
  exact digit_ne d hd

/-- A word has so many digits. -/
theorem length_lowDigits (width n : Nat) : (lowDigits width n).length = width := by
  induction width generalizing n with
  | zero => rfl
  | succ width ih => rw [lowDigits, List.length_cons, ih]

/-- The number of two runs of digits is read off the second from where the first ends. -/
theorem number?_append (start : Nat) (front back : List Char) :
    number? start (front ++ back) = (number? start front).bind fun n => number? n back := by
  induction front generalizing start with
  | nil => rfl
  | cons c front ih =>
    rw [List.cons_append, number?, number?]
    cases digitValue? c with
    | none => rfl
    | some d => exact ih _

/-- Reading the digits of a word moves the start up by their count and adds the word. -/
theorem number?_lowDigits (start width n : Nat) :
    number? start (lowDigits width n).reverse = some (start * 16 ^ width + n % 16 ^ width) := by
  induction width generalizing n with
  | zero =>
    rw [Nat.pow_zero, Nat.mod_one, Nat.mul_one, Nat.add_zero]
    rfl
  | succ width ih =>
    have hdigit : digitValue? (digit (n % 16)) = some (n % 16) :=
      digitValue?_digit _ (Nat.mod_lt n (by decide))
    rw [lowDigits, List.reverse_cons, number?_append, ih, Option.bind_some, number?, hdigit,
      Option.bind_some, number?, Nat.pow_succ', Nat.mod_mul, Nat.mul_add, Nat.mul_left_comm,
      Nat.add_assoc, Nat.add_comm (16 * _) (n % 16)]

/-- Text that a written word is the digits of denotes the word. -/
theorem numeralBelow?_lowDigits {bound width n : Nat} (hwidth : 0 < width) (hn : n < 16 ^ width)
    (hbound : n < bound) : numeralBelow? bound (lowDigits width n).reverse = some n := by
  have hnumber := number?_lowDigits 0 width n
  rw [Nat.zero_mul, Nat.zero_add, Nat.mod_eq_of_lt hn] at hnumber
  cases hdigits : (lowDigits width n).reverse with
  | nil =>
    obtain ⟨k, rfl⟩ := Nat.exists_eq_add_of_le' hwidth
    rw [List.reverse_eq_nil_iff, lowDigits] at hdigits
    cases hdigits
  | cons c rest =>
    have hc : c ∈ lowDigits width n :=
      List.mem_reverse.mp (hdigits ▸ List.mem_cons_self)
    rw [hdigits] at hnumber
    unfold numeralBelow?
    split
    · rename_i hplus
      cases hplus
      exact absurd rfl (ne_of_mem_lowDigits hc).1
    · simp [hnumber, hbound]

/-- A digit is an octet, and no white space. -/
theorem octets_digit : ∀ n < 16, octets (digit n) = [digit n] ∧ Text.isBlank (digit n) = false := by
  decide

/-- A byte string is written in digits only. -/
theorem exists_digit_of_mem_digitsOf {bytes : Bytes} {c : Char} (hc : c ∈ digitsOf bytes) :
    ∃ n < 16, c = digit n := by
  induction bytes with
  | nil => cases hc
  | cons b bytes ih =>
    have hbyte := b.toNat_lt
    rw [digitsOf, byteDigits, List.mem_append, List.mem_cons, List.mem_singleton] at hc
    rcases hc with (rfl | rfl) | hc
    · exact ⟨b.toNat / 16, by omega, rfl⟩
    · exact ⟨b.toNat % 16, by omega, rfl⟩
    · exact ih hc

/-- Characters that are octets are the octets of their text. -/
theorem flatMap_octets {chars : List Char} (hchars : ∀ c ∈ chars, octets c = [c]) :
    chars.flatMap octets = chars := by
  induction chars with
  | nil => rfl
  | cons c chars ih =>
    rw [List.forall_mem_cons] at hchars
    rw [List.flatMap_cons, hchars.1, ih hchars.2, List.singleton_append]

/-- Characters of which none is white space are not trimmed. -/
theorem dropWhile_isBlank {chars : List Char} (hchars : ∀ c ∈ chars, Text.isBlank c = false) :
    chars.dropWhile Text.isBlank = chars := by
  cases chars with
  | nil => rfl
  | cons c chars => rw [List.dropWhile_cons, hchars c List.mem_cons_self, if_neg Bool.false_ne_true]

/-- A byte string has two digits for each byte. -/
theorem length_digitsOf (bytes : Bytes) : (digitsOf bytes).length = 2 * bytes.length := by
  induction bytes with
  | nil => rfl
  | cons b bytes ih =>
    rw [digitsOf, List.length_append, ih, byteDigits, List.length_cons, List.length_singleton,
      List.length_cons]
    omega

/-- The digits of a byte string are read in pairs. -/
theorem decodeDigits_digitsOf (index : Nat) (bytes : Bytes) :
    decodeDigits index (digitsOf bytes) = .ok bytes := by
  induction bytes generalizing index with
  | nil => rfl
  | cons b bytes ih =>
    have hbyte := b.toNat_lt
    have hhigh : digitValue? (digit (b.toNat / 16)) = some (b.toNat / 16) :=
      digitValue?_digit _ (by omega)
    have hlow : digitValue? (digit (b.toNat % 16)) = some (b.toNat % 16) :=
      digitValue?_digit _ (by omega)
    have hwhole : 16 * (b.toNat / 16) + b.toNat % 16 = b.toNat := by omega
    rw [digitsOf, byteDigits, List.cons_append, List.cons_append, List.nil_append, decodeDigits]
    simp only [hhigh, hlow, ih, hwhole, UInt8.ofNat_toNat]
    rfl

/-- A byte string is read back from its text. -/
theorem decode_encode (bytes : Bytes) : decode (encode bytes) = .ok bytes := by
  have hoctets : (digitsOf bytes).flatMap octets = digitsOf bytes := by
    refine flatMap_octets fun c hc => ?_
    obtain ⟨n, hn, rfl⟩ := exists_digit_of_mem_digitsOf hc
    exact (octets_digit n hn).1
  have heven : ¬(digitsOf bytes).length % 2 = 1 := by
    rw [length_digitsOf]
    omega
  rw [decode, encode, String.toList_ofList, hoctets]
  simp only [if_neg heven, decodeDigits_digitsOf]

/-- There is no white space around the text of a byte string. -/
theorem trim_encode (bytes : Bytes) : Text.trim (encode bytes) = encode bytes := by
  have hnone : ∀ c ∈ digitsOf bytes, Text.isBlank c = false := by
    intro c hc
    obtain ⟨n, hn, rfl⟩ := exists_digit_of_mem_digitsOf hc
    exact (octets_digit n hn).2
  rw [Text.trim, Text.trimEnd, encode, String.toList_ofList, String.toList_ofList,
    dropWhile_isBlank hnone, dropWhile_isBlank fun c hc => hnone c (List.mem_reverse.mp hc),
    List.reverse_reverse]

end WireParity.Hex
