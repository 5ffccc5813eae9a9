import WireParity.Proofs.Bytes.Hex
import WireParity.Proofs.Parity.Mismatch

/-!
# Where two byte strings part

Two byte strings that differ have a longest common prefix, and after it they go on with different
bytes, or one of them ends. A mismatch of bytes is reported for that place: its offset is the length
of the prefix, and its two bytes are those that come next. Its two texts are all of the strings, so
nothing about them is lost in a report.
-/

namespace WireParity

/-- The longest byte string that two others begin with. -/
structure LongestCommonPrefix (front xs ys : Bytes) : Prop where
  left : front <+: xs
  right : front <+: ys
  longest : ∀ other, other <+: xs → other <+: ys → other <+: front

/-- Where two byte strings part, so many bytes are common, and what comes next is not, the end of a
string included. -/
theorem exists_parts_of_divergence? {xs ys : Bytes} {offset : Nat}
    (h : divergence? xs ys = some offset) :
    ∃ front back rest, xs = front ++ back ∧ ys = front ++ rest ∧ offset = front.length ∧
      back.head? ≠ rest.head? := by
  induction xs generalizing ys offset with
  | nil =>
    cases ys with
    | nil => cases h
    | cons y ys =>
      cases h
      exact ⟨[], [], y :: ys, rfl, rfl, rfl, nofun⟩
  | cons x xs ih =>
    cases ys with
    | nil =>
      cases h
      exact ⟨[], x :: xs, [], rfl, rfl, rfl, nofun⟩
    | cons y ys =>
      rw [divergence?] at h
      by_cases hsame : x = y
      · rw [if_pos hsame] at h
        obtain ⟨before, hbefore, rfl⟩ := Option.map_eq_some_iff.mp h
        obtain ⟨front, back, rest, rfl, rfl, rfl, hnext⟩ := ih hbefore
        exact ⟨x :: front, back, rest, rfl, hsame ▸ rfl, rfl, hnext⟩
      · rw [if_neg hsame] at h
        cases h
        exact ⟨[], x :: xs, y :: ys, rfl, rfl, rfl, fun hnext => hsame (Option.some.inj hnext)⟩

/-- What comes after a front is what stands at its length. -/
theorem getElem?_length_append (front back : Bytes) : (front ++ back)[front.length]? = back.head? := by
  rw [List.getElem?_append_right (Nat.le_refl _), Nat.sub_self, List.head?_eq_getElem?]

/-- A common front after which nothing is common is the longest. -/
theorem longestCommonPrefix_append {front back rest : Bytes} (hnext : back.head? ≠ rest.head?) :
    LongestCommonPrefix front (front ++ back) (front ++ rest) := by
  refine ⟨List.prefix_append .., List.prefix_append .., fun other hleft hright => ?_⟩
  by_contra hlonger
  have hlength : front.length < other.length := by
    by_contra hshort
    exact hlonger (List.prefix_of_prefix_length_le hleft (List.prefix_append ..) (by omega))
  -- A longer one would have a byte after the front, and both strings would have it there.
  have hafter : ∀ after : Bytes, other <+: front ++ after →
      after.head? = other[front.length]? := by
    rintro after ⟨tail, htail⟩
    rw [← getElem?_length_append front after, ← htail, List.getElem?_append_left hlength]
  exact hnext ((hafter back hleft).trans (hafter rest hright).symm)

/-- What a report of two byte strings that differ has to tell of them. -/
structure ByteMismatch.Tells (m : ByteMismatch) (expected actual : Bytes) : Prop where
  /-- The offset is how many bytes the strings have in common before they part. -/
  offset : ∃ front, LongestCommonPrefix front expected actual ∧ m.offset = front.length
  /-- The expected byte is the one at the offset. -/
  expectedByte : m.expectedByte = expected[m.offset]?
  /-- The actual byte is the one at the offset. -/
  actualByte : m.actualByte = actual[m.offset]?
  /-- There is no expected byte exactly if the expected string ends there. -/
  expectedEnd : m.expectedByte = none ↔ expected.length = m.offset
  /-- There is no actual byte exactly if the actual string ends there. -/
  actualEnd : m.actualByte = none ↔ actual.length = m.offset
  /-- The bytes are not the same. -/
  bytes_ne : m.expectedByte ≠ m.actualByte
  /-- The length of the expected string. -/
  expectedLength : m.expectedLength = expected.length
  /-- The length of the actual string. -/
  actualLength : m.actualLength = actual.length
  /-- The expected string can be read back. -/
  expectedText : Hex.decode m.expectedHex = .ok expected
  /-- The actual string can be read back. -/
  actualText : Hex.decode m.actualHex = .ok actual

/-- The byte after a front is missing exactly if the string ends there. -/
theorem getElem?_length_append_eq_none (front back : Bytes) :
    (front ++ back)[front.length]? = none ↔ (front ++ back).length = front.length := by
  rw [List.getElem?_eq_none_iff, List.length_append]
  omega

/-- A mismatch tells all that a report of it has to. -/
theorem tells_of_byteMismatch? {expected actual : Bytes} {m : ByteMismatch}
    (h : byteMismatch? expected actual = some m) : m.Tells expected actual := by
  obtain ⟨offset, hoffset, rfl⟩ := Option.map_eq_some_iff.mp h
  obtain ⟨front, back, rest, rfl, rfl, rfl, hnext⟩ := exists_parts_of_divergence? hoffset
  exact
    { offset := ⟨front, longestCommonPrefix_append hnext, rfl⟩
      expectedByte := rfl
      actualByte := rfl
      expectedEnd := getElem?_length_append_eq_none front back
      actualEnd := getElem?_length_append_eq_none front rest
      bytes_ne := by
        rw [getElem?_length_append, getElem?_length_append]
        exact hnext
      expectedLength := rfl
      actualLength := rfl
      expectedText := Hex.decode_encode _
      actualText := Hex.decode_encode _ }

/-- There is no mismatch of two byte strings exactly if they are the same. Where they are not, there
is one, at the end of their longest common prefix, with the two bytes that come next, of which one
may be missing because the string ends there, but which are not the same. Whatever two strings a
mismatch is of, its texts and lengths are those of the two and of no others. -/
theorem byteMismatch?_tells (expected actual : Bytes) :
    (byteMismatch? expected actual = none ↔ expected = actual) ∧
    (expected ≠ actual →
      ∃ m, byteMismatch? expected actual = some m ∧ m.Tells expected actual) ∧
    ∀ m, byteMismatch? expected actual = some m → ∀ others others' m',
      byteMismatch? others others' = some m' →
      m'.expectedLength = m.expectedLength → m'.actualLength = m.actualLength →
      m'.expectedHex = m.expectedHex → m'.actualHex = m.actualHex →
        others = expected ∧ others' = actual := by
  refine ⟨byteMismatch?_eq_none_iff, fun hne => ?_, ?_⟩
  · obtain ⟨m, hm⟩ := Option.ne_none_iff_exists'.mp (mt byteMismatch?_eq_none_iff.mp hne)
    exact ⟨m, hm, tells_of_byteMismatch? hm⟩
  · intro m hm others others' m' hm' _ _ hexpected hactual
    have htells := tells_of_byteMismatch? hm
    have htells' := tells_of_byteMismatch? hm'
    have hothers := htells'.expectedText
    have hothers' := htells'.actualText
    rw [hexpected, htells.expectedText, Except.ok.injEq] at hothers
    rw [hactual, htells.actualText, Except.ok.injEq] at hothers'
    exact ⟨hothers.symm, hothers'.symm⟩

/-- The expected string goes on where the actual one has ended. -/
theorem byteMismatch?_tells_ended :
    ([1, 2, 3] : Bytes) ≠ [1, 2] ∧
      ∃ m : ByteMismatch, byteMismatch? [1, 2, 3] [1, 2] = some m ∧ m.offset = 2 ∧
        m.expectedByte = some 3 ∧ m.actualByte = none ∧ m.Tells [1, 2, 3] [1, 2] ∧
        ∀ others others', byteMismatch? others others' = some m →
          others = [1, 2, 3] ∧ others' = [1, 2] := by
  have hne : ([1, 2, 3] : Bytes) ≠ [1, 2] := by decide
  obtain ⟨-, hsome, hunique⟩ := byteMismatch?_tells [1, 2, 3] [1, 2]
  obtain ⟨m, hm, htells⟩ := hsome hne
  refine ⟨hne, m, hm, ?_, ?_, ?_, htells,
    fun others others' h => hunique m hm others others' m h rfl rfl rfl rfl⟩
  all_goals cases hm; rfl

end WireParity
