import WireParity.Codec.FromJson
import WireParity.Corpus.Load
import WireParity.Proofs.Bytes.Hex
import Mathlib.Data.List.Forall2
import Mathlib.Data.Nat.Digits.Defs

/-!
# Which texts are read as hexadecimal numbers

Values and checksums may be given in hexadecimal. `IsWord` and `IsChecksum` are the texts that are
meant: digits, most significant first, after one `0x` or `0X`, which a checksum may do without, and
with underscores only in a value. Both readers take each of these for the number that its digits
denote. Both also take a plus sign before the digits, and the reader of checksums any number of `0x`
and then any number of `0X`. Nothing else gets through, so the texts that are read though they are
not meant are told by these signs.
-/

namespace WireParity

namespace Hex

/-- A character is the digit for a number below sixteen, in lower or in upper case. -/
def StandsFor (c : Char) (value : Nat) : Prop :=
  "0123456789abcdef".toList[value]? = some c ∨ "0123456789ABCDEF".toList[value]? = some c

instance (c : Char) (value : Nat) : Decidable (StandsFor c value) :=
  inferInstanceAs (Decidable (_ ∨ _))

/-- Digits denote a number to base sixteen. There is one of them at least, and the last counts the
ones. -/
def Denotes (digits : List Char) (n : Nat) : Prop :=
  digits ≠ [] ∧ ∃ values, List.Forall₂ StandsFor digits values ∧ n = Nat.ofDigits 16 values.reverse

/-- A digit is one of the characters in the two rows. -/
theorem StandsFor.mem {c : Char} {value : Nat} (h : StandsFor c value) :
    c ∈ "0123456789abcdef".toList ++ "0123456789ABCDEF".toList :=
  List.mem_append.mpr (h.imp List.mem_of_getElem? List.mem_of_getElem?)

/-- A digit is read as the number that it stands for. -/
theorem digitValue?_of_standsFor {c : Char} {value : Nat} (h : StandsFor c value) :
    digitValue? c = some value := by
  have hrows : ∀ value < 16,
      "0123456789abcdef".toList[value]?.bind digitValue? = some value ∧
      "0123456789ABCDEF".toList[value]?.bind digitValue? = some value := by decide
  rcases h with hlower | hupper
  · have hvalue : value < 16 := (List.getElem?_eq_some_iff.mp hlower).1
    have hread := (hrows value hvalue).1
    rwa [hlower, Option.bind_some] at hread
  · have hvalue : value < 16 := (List.getElem?_eq_some_iff.mp hupper).1
    have hread := (hrows value hvalue).2
    rwa [hupper, Option.bind_some] at hread

/-- A stretch of characters stands for the numbers that are so much below theirs, if each does. -/
theorem standsFor_of_le {first last c : Char} {below : Nat} (h : first ≤ c ∧ c ≤ last)
    (hrow : ∀ n ≤ last.toNat - first.toNat,
      StandsFor (Char.ofNat (first.toNat + n)) (first.toNat + n - below)) :
    StandsFor c (c.toNat - below) := by
  have hfirst : first.toNat ≤ c.toNat := UInt32.le_iff_toNat_le.mp h.1
  have hlast : c.toNat ≤ last.toNat := UInt32.le_iff_toNat_le.mp h.2
  have hc := hrow (c.toNat - first.toNat) (Nat.sub_le_sub_right hlast _)
  rwa [Nat.add_sub_cancel' hfirst, Char.ofNat_toNat] at hc

/-- A character is a digit for a number exactly if it is read as one. -/
theorem digitValue?_eq_some_iff {c : Char} {value : Nat} :
    digitValue? c = some value ↔ StandsFor c value := by
  refine ⟨fun hread => ?_, digitValue?_of_standsFor⟩
  unfold digitValue? at hread
  split at hread
  · rename_i hdecimal
    cases hread
    exact standsFor_of_le hdecimal (by decide)
  split at hread
  · rename_i hlower
    cases hread
    exact standsFor_of_le hlower (by decide)
  split at hread
  · rename_i hupper
    cases hread
    exact standsFor_of_le hupper (by decide)
  · cases hread

/-- Digits that denote a number are digits. -/
theorem Denotes.not_mem {digits : List Char} {n : Nat} (h : Denotes digits n) {c : Char}
    (hc : c ∉ "0123456789abcdef".toList ++ "0123456789ABCDEF".toList) : c ∉ digits := by
  obtain ⟨-, values, hvalues, -⟩ := h
  induction hvalues with
  | nil => exact List.not_mem_nil
  | cons hdigit _ ih =>
    rw [List.mem_cons, not_or]
    exact ⟨fun hsame => hc (hsame ▸ hdigit.mem), ih⟩

/-- A digit in front of others counts as many sixteens as there are others. -/
theorem ofDigits_reverse_cons (start value : Nat) (values : List Nat) :
    start * 16 ^ (values.length + 1) + Nat.ofDigits 16 (value :: values).reverse =
      (16 * start + value) * 16 ^ values.length + Nat.ofDigits 16 values.reverse := by
  rw [List.reverse_cons, Nat.ofDigits_append, Nat.ofDigits_singleton, List.length_reverse,
    Nat.pow_succ]
  ring

/-- Reading digits moves the start up by their count and adds what they denote. -/
theorem number?_eq_some_iff {start n : Nat} {digits : List Char} :
    number? start digits = some n ↔ ∃ values, List.Forall₂ StandsFor digits values ∧
      n = start * 16 ^ values.length + Nat.ofDigits 16 values.reverse := by
  induction digits generalizing start with
  | nil => simp [number?, eq_comm]
  | cons c rest ih =>
    rw [number?, Option.bind_eq_some_iff]
    refine ⟨?_, ?_⟩
    · rintro ⟨value, hvalue, hrest⟩
      obtain ⟨values, hvalues, rfl⟩ := ih.mp hrest
      exact ⟨value :: values, .cons (digitValue?_eq_some_iff.mp hvalue) hvalues,
        (ofDigits_reverse_cons start value values).symm⟩
    · rintro ⟨values, hvalues, rfl⟩
      cases hvalues with
      | cons hdigit hvalues =>
        exact ⟨_, digitValue?_eq_some_iff.mpr hdigit,
          ih.mpr ⟨_, hvalues, ofDigits_reverse_cons start _ _⟩⟩

/-- No digit is a plus sign or the second character of a prefix. -/
theorem Denotes.plain {digits : List Char} {n : Nat} (h : Denotes digits n) :
    '+' ∉ digits ∧ 'x' ∉ digits ∧ 'X' ∉ digits :=
  ⟨h.not_mem (by decide), h.not_mem (by decide), h.not_mem (by decide)⟩

/-- Digits denote a number if there are any and they are read as it. -/
theorem denotes_iff_number? {digits : List Char} {n : Nat} :
    Denotes digits n ↔ digits ≠ [] ∧ number? 0 digits = some n := by
  simp only [Denotes, number?_eq_some_iff, Nat.zero_mul, Nat.zero_add]

/-- Digits denote a number, perhaps after a plus sign. -/
def DenotesPlus (text : List Char) (n : Nat) : Prop :=
  Denotes text n ∨ ∃ digits, text = '+' :: digits ∧ Denotes digits n

/-- Only the plus sign tells what denotes a number after it from what does without. -/
theorem DenotesPlus.denotes_iff {text : List Char} {n : Nat} (h : DenotesPlus text n) :
    Denotes text n ↔ '+' ∉ text := by
  refine ⟨fun hdenotes => hdenotes.plain.1, fun hplus => ?_⟩
  rcases h with hdenotes | ⟨digits, rfl, -⟩
  · exact hdenotes
  · exact absurd List.mem_cons_self hplus

/-- A sign or digit is not the second character of a prefix. -/
theorem DenotesPlus.unmarked {text : List Char} {n : Nat} (h : DenotesPlus text n) :
    'x' ∉ text ∧ 'X' ∉ text := by
  rcases h with hdenotes | ⟨digits, rfl, hdenotes⟩
  · exact hdenotes.plain.2
  · exact ⟨List.not_mem_cons_of_ne_of_not_mem (by decide) hdenotes.plain.2.1,
      List.not_mem_cons_of_ne_of_not_mem (by decide) hdenotes.plain.2.2⟩

/-- After a plus sign, a numeral is digits. -/
theorem numeralBelow?_plus_eq_some_iff {bound n : Nat} {digits : List Char} :
    numeralBelow? bound ('+' :: digits) = some n ↔ Denotes digits n ∧ n < bound := by
  rw [denotes_iff_number?]
  cases digits with
  | nil => simp [numeralBelow?]
  | cons c rest => simp [numeralBelow?, Option.filter_eq_some_iff]

/-- Without a plus sign, a numeral is digits. -/
theorem numeralBelow?_unsigned_eq_some_iff {bound n : Nat} {text : List Char}
    (hplus : ∀ digits, text ≠ '+' :: digits) :
    numeralBelow? bound text = some n ↔ Denotes text n ∧ n < bound := by
  rw [denotes_iff_number?]
  cases text with
  | nil => simp [numeralBelow?]
  | cons c rest => simp [numeralBelow?, Option.filter_eq_some_iff]

/-- A numeral denotes a number below the bound. -/
theorem numeralBelow?_eq_some_iff {bound n : Nat} {text : List Char} :
    numeralBelow? bound text = some n ↔ DenotesPlus text n ∧ n < bound := by
  by_cases hsign : ∃ digits, text = '+' :: digits
  · obtain ⟨digits, rfl⟩ := hsign
    rw [numeralBelow?_plus_eq_some_iff]
    refine and_congr_left fun _ => ⟨fun h => Or.inr ⟨digits, rfl, h⟩, ?_⟩
    rintro (h | ⟨others, hsame, h⟩)
    · exact absurd List.mem_cons_self h.plain.1
    · exact (List.cons.inj hsame).2 ▸ h
  · have hplus : ∀ digits, text ≠ '+' :: digits := fun digits h => hsign ⟨digits, h⟩
    rw [numeralBelow?_unsigned_eq_some_iff hplus]
    refine and_congr_left fun _ => ⟨Or.inl, ?_⟩
    rintro (h | ⟨digits, rfl, -⟩)
    · exact h
    · exact absurd rfl (hplus digits)

end Hex

/-- If a reader takes all that is meant, and what it takes is meant exactly if the text is plain, then
it takes just what is meant exactly where it takes nothing or the text is plain. -/
theorem reads_exactly_iff {read : Option Nat} {meant : Nat → Prop} {plain : Prop}
    (hreads : ∀ n, meant n → read = some n) (hplain : ∀ n, read = some n → (meant n ↔ plain)) :
    (∀ n, read = some n ↔ meant n) ↔ read = none ∨ plain := by
  cases hread : read with
  | none =>
    refine iff_of_true (fun n => iff_of_false nofun fun h => ?_) (Or.inl rfl)
    cases hread.symm.trans (hreads n h)
  | some number =>
    refine ⟨fun h => Or.inr ((hplain number hread).mp ((h number).mp rfl)), fun h n => ?_⟩
    refine ⟨fun hn => ?_, fun h => hread.symm.trans (hreads n h)⟩
    exact (hplain n (hread.trans hn)).mpr (h.resolve_left nofun)

namespace Value

/-- A text is a number of 64 bits in hexadecimal: one prefix, and then digits that denote the number,
among which there may be underscores. -/
def IsWord (text : String) (n : Nat) : Prop :=
  ∃ mark body, (mark = 'x' ∨ mark = 'X') ∧ text.toList = '0' :: mark :: body ∧
    Hex.Denotes (body.filter (· != '_')) n ∧ n < 2 ^ 64

variable {text : String} {n : Nat}

/-- A number is read from what follows the prefix, without the underscores. -/
theorem hexNumber?_eq_some_iff :
    hexNumber? text = some n ↔ ∃ mark body, (mark = 'x' ∨ mark = 'X') ∧
      text.toList = '0' :: mark :: body ∧
      Hex.DenotesPlus (body.filter (· != '_')) n ∧ n < 2 ^ 64 := by
  simp only [← Hex.numeralBelow?_eq_some_iff]
  unfold hexNumber?
  split
  · rename_i body htext
    refine ⟨fun h => ⟨'x', body, Or.inl rfl, htext, h⟩, ?_⟩
    rintro ⟨mark, other, -, hother, h⟩
    cases htext.symm.trans hother
    exact h
  · rename_i body htext
    refine ⟨fun h => ⟨'X', body, Or.inr rfl, htext, h⟩, ?_⟩
    rintro ⟨mark, other, -, hother, h⟩
    cases htext.symm.trans hother
    exact h
  · rename_i hsmall hlarge
    refine ⟨fun h => (by cases h), ?_⟩
    rintro ⟨mark, body, rfl | rfl, htext, -⟩
    · exact absurd htext (hsmall body)
    · exact absurd htext (hlarge body)

/-- All that is meant is read. -/
theorem hexNumber?_of_isWord (h : IsWord text n) : hexNumber? text = some n := by
  obtain ⟨mark, body, hmark, htext, hdenotes, hbound⟩ := h
  exact hexNumber?_eq_some_iff.mpr ⟨mark, body, hmark, htext, Or.inl hdenotes, hbound⟩

/-- What is read is meant if it has no plus sign. -/
theorem isWord_iff_of_hexNumber? (h : hexNumber? text = some n) :
    IsWord text n ↔ '+' ∉ text.toList := by
  obtain ⟨mark, body, hmark, htext, hdenotes, hbound⟩ := hexNumber?_eq_some_iff.mp h
  have hplus : '+' ∉ text.toList ↔ '+' ∉ body.filter (· != '_') := by
    rcases hmark with rfl | rfl <;> simp [htext]
  rw [hplus, ← hdenotes.denotes_iff]
  refine ⟨?_, fun hdigits => ⟨mark, body, hmark, htext, hdigits, hbound⟩⟩
  rintro ⟨mark, other, -, hother, hdigits, -⟩
  cases htext.symm.trans hother
  exact hdigits

end Value

namespace VectorEntry

/-- A text is a checksum of 32 bits in hexadecimal: digits that denote it, after one prefix or none. -/
def IsChecksum (text : String) (n : Nat) : Prop :=
  ∃ front digits, (front = [] ∨ front = ['0', 'x'] ∨ front = ['0', 'X']) ∧
    text.toList = front ++ digits ∧ Hex.Denotes digits n ∧ n < 2 ^ 32

/-- So many small prefixes, and then so many large ones. -/
def prefixes (small large : Nat) : List Char :=
  (List.replicate small ['0', 'x']).flatten ++ (List.replicate large ['0', 'X']).flatten

/-- How many characters of a text are the second of a prefix. -/
def marks (text : List Char) : Nat := text.countP fun c => c == 'x' || c == 'X'

/-- What is dropped is a number of copies of the prefix. -/
theorem exists_eq_append_dropAll (start : List Char) (count : Nat) (text : List Char) :
    ∃ copies, text = (List.replicate copies start).flatten ++ dropAll start count text := by
  induction count generalizing text with
  | zero => exact ⟨0, rfl⟩
  | succ count ih =>
    rw [dropAll]
    split
    · rename_i hstart
      obtain ⟨rest, rfl⟩ := List.isPrefixOf_iff_prefix.mp hstart
      obtain ⟨copies, hcopies⟩ := ih rest
      refine ⟨copies + 1, ?_⟩
      rw [List.drop_left, List.replicate_succ, List.flatten_cons, List.append_assoc, ← hcopies]
    · exact ⟨0, rfl⟩

/-- All copies of a prefix are dropped, and no more where the rest lacks one of its characters. -/
theorem dropAll_append {start rest : List Char} {c : Char} (hc : c ∈ start) (hrest : c ∉ rest)
    {copies count : Nat} (hcount : copies ≤ count) :
    dropAll start count ((List.replicate copies start).flatten ++ rest) = rest := by
  induction count generalizing copies with
  | zero =>
    rw [Nat.le_zero.mp hcount]
    rfl
  | succ count ih =>
    rw [dropAll]
    cases copies with
    | zero =>
      have hnot : ¬start.isPrefixOf rest = true := by
        rw [List.isPrefixOf_iff_prefix]
        exact fun hstart => hrest (hstart.subset hc)
      rw [List.replicate_zero, List.flatten_nil, List.nil_append, if_neg hnot]
    | succ copies =>
      have hstart : start.isPrefixOf
          (start ++ ((List.replicate copies start).flatten ++ rest)) = true :=
        List.isPrefixOf_iff_prefix.mpr (List.prefix_append ..)
      rw [List.replicate_succ, List.flatten_cons, List.append_assoc, if_pos hstart, List.drop_left]
      exact ih (Nat.le_of_succ_le_succ hcount)

variable {text : String} {n : Nat}

/-- A checksum is read after all prefixes, the small ones first. -/
theorem checksum?_eq_some_iff :
    checksum? text = some n ↔ ∃ small large rest, text.toList = prefixes small large ++ rest ∧
      Hex.DenotesPlus rest n ∧ n < 2 ^ 32 := by
  simp only [← Hex.numeralBelow?_eq_some_iff, prefixes, List.append_assoc]
  rw [checksum?]
  refine ⟨fun h => ?_, ?_⟩
  · obtain ⟨small, hsmall⟩ :=
      exists_eq_append_dropAll ['0', 'x'] text.toList.length text.toList
    obtain ⟨large, hlarge⟩ := exists_eq_append_dropAll ['0', 'X'] text.toList.length
      (dropAll ['0', 'x'] text.toList.length text.toList)
    exact ⟨small, large, _, by rw [← hlarge, ← hsmall], h⟩
  · rintro ⟨small, large, rest, htext, hnumber⟩
    obtain ⟨hx, hX⟩ := (Hex.numeralBelow?_eq_some_iff.mp hnumber).1.unmarked
    have hx' : 'x' ∉ (List.replicate large ['0', 'X']).flatten ++ rest := by simp [hx]
    have hlength : small ≤ text.toList.length ∧ large ≤ text.toList.length := by
      simp only [htext, List.length_append, List.length_flatten, List.map_replicate,
        List.sum_replicate_nat, List.length_cons, List.length_nil]
      omega
    generalize text.toList.length = count at hlength
    rw [htext, dropAll_append (by decide) hx' hlength.1, dropAll_append (by decide) hX hlength.2]
    exact hnumber

/-- A text is meant exactly if it has one prefix at most and then digits. -/
theorem isChecksum_iff_prefixes :
    IsChecksum text n ↔ ∃ small large digits, small + large ≤ 1 ∧
      text.toList = prefixes small large ++ digits ∧ Hex.Denotes digits n ∧ n < 2 ^ 32 := by
  refine ⟨?_, ?_⟩
  · rintro ⟨front, digits, rfl | rfl | rfl, h⟩
    · exact ⟨0, 0, digits, by decide, h⟩
    · exact ⟨1, 0, digits, by decide, h⟩
    · exact ⟨0, 1, digits, by decide, h⟩
  · rintro ⟨small, large, digits, hone, h⟩
    refine ⟨prefixes small large, digits, ?_, h⟩
    obtain ⟨rfl, rfl⟩ | ⟨rfl, rfl⟩ | ⟨rfl, rfl⟩ : small = 0 ∧ large = 0 ∨ small = 1 ∧ large = 0 ∨
        small = 0 ∧ large = 1 := by omega
    · exact Or.inl rfl
    · exact Or.inr (Or.inl rfl)
    · exact Or.inr (Or.inr rfl)

/-- Every prefix has one character that marks it, and nothing else has. -/
theorem marks_prefixes {small large : Nat} {rest : List Char} (h : Hex.DenotesPlus rest n) :
    marks (prefixes small large ++ rest) = small + large := by
  have hrest : marks rest = 0 := by
    refine List.countP_eq_zero.mpr fun c hc hmark => ?_
    rcases Bool.or_eq_true_iff.mp hmark with hx | hX
    · exact h.unmarked.1 (beq_iff_eq.mp hx ▸ hc)
    · exact h.unmarked.2 (beq_iff_eq.mp hX ▸ hc)
  rw [marks] at hrest
  simp [marks, prefixes, List.countP_flatten, hrest]

/-- No prefix has a plus sign. -/
theorem plus_mem_prefixes {small large : Nat} {rest : List Char} :
    '+' ∈ prefixes small large ++ rest ↔ '+' ∈ rest := by
  simp [prefixes]

/-- All that is meant is read. -/
theorem checksum?_of_isChecksum (h : IsChecksum text n) : checksum? text = some n := by
  obtain ⟨small, large, digits, -, htext, hdenotes, hbound⟩ := isChecksum_iff_prefixes.mp h
  exact checksum?_eq_some_iff.mpr ⟨small, large, digits, htext, Or.inl hdenotes, hbound⟩

/-- What is read is meant if it has no plus sign and one prefix at most. -/
theorem isChecksum_iff_of_checksum? (h : checksum? text = some n) :
    IsChecksum text n ↔ '+' ∉ text.toList ∧ marks text.toList ≤ 1 := by
  refine ⟨fun hmeant => ?_, ?_⟩
  · obtain ⟨small, large, digits, hone, htext, hdenotes, -⟩ := isChecksum_iff_prefixes.mp hmeant
    rw [htext, plus_mem_prefixes, marks_prefixes (Or.inl hdenotes)]
    exact ⟨hdenotes.plain.1, hone⟩
  · obtain ⟨small, large, rest, htext, hdenotes, hbound⟩ := checksum?_eq_some_iff.mp h
    rw [htext, plus_mem_prefixes, marks_prefixes hdenotes, ← hdenotes.denotes_iff]
    exact fun ⟨hdigits, hone⟩ =>
      isChecksum_iff_prefixes.mpr ⟨small, large, rest, hone, htext, hdigits, hbound⟩

end VectorEntry

/-- The readers of hexadecimal values and checksums take just these texts, with just these numbers: a
value has one prefix and then, underscores apart, digits that may stand after a plus sign; a checksum
has any number of small prefixes, any number of large ones, and then the same without underscores.
What a value is meant to be is therefore what is read, but for the texts that are read with a plus
sign; what a checksum is meant to be is, but for those that are read with a plus sign or with more
than one prefix. -/
theorem Hex.readers_take (text : String) :
    ((∀ n, Value.hexNumber? text = some n ↔ ∃ mark body, (mark = 'x' ∨ mark = 'X') ∧
        text.toList = '0' :: mark :: body ∧
        DenotesPlus (body.filter (· != '_')) n ∧ n < 2 ^ 64) ∧
      ((∀ n, Value.hexNumber? text = some n ↔ Value.IsWord text n) ↔
        Value.hexNumber? text = none ∨ '+' ∉ text.toList)) ∧
    (∀ n, VectorEntry.checksum? text = some n ↔ ∃ small large rest,
        text.toList = VectorEntry.prefixes small large ++ rest ∧
        DenotesPlus rest n ∧ n < 2 ^ 32) ∧
      ((∀ n, VectorEntry.checksum? text = some n ↔ VectorEntry.IsChecksum text n) ↔
        VectorEntry.checksum? text = none ∨
          ('+' ∉ text.toList ∧ VectorEntry.marks text.toList ≤ 1)) :=
  ⟨⟨fun _ => Value.hexNumber?_eq_some_iff,
      reads_exactly_iff (fun _ => Value.hexNumber?_of_isWord)
        fun _ => Value.isWord_iff_of_hexNumber?⟩,
    fun _ => VectorEntry.checksum?_eq_some_iff,
    reads_exactly_iff (fun _ => VectorEntry.checksum?_of_isChecksum)
      fun _ => VectorEntry.isChecksum_iff_of_checksum?⟩

/-- A plus sign is read in a value, and a second prefix before a checksum, and neither is meant. -/
theorem Hex.readers_take_more :
    Value.hexNumber? "0x+5" = some 5 ∧ ¬Value.IsWord "0x+5" 5 ∧
      VectorEntry.checksum? "0x0x32d70693" = some 0x32d70693 ∧
      ¬VectorEntry.IsChecksum "0x0x32d70693" 0x32d70693 := by
  have hvalue : Value.hexNumber? "0x+5" = some 5 := by decide
  have hchecksum : VectorEntry.checksum? "0x0x32d70693" = some 0x32d70693 := by decide
  refine ⟨hvalue, fun h => ?_, hchecksum, fun h => ?_⟩
  · exact absurd ((Value.isWord_iff_of_hexNumber? hvalue).mp h) (by decide)
  · exact absurd ((VectorEntry.isChecksum_iff_of_checksum? hchecksum).mp h) (by decide)

end WireParity
