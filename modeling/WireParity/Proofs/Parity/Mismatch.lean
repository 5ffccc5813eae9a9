import WireParity.Parity.Run
import WireParity.Proofs.Value.Agreement

/-!
# When a comparison finds something

A comparison of bytes finds a mismatch exactly where the bytes differ, and a comparison of values
exactly where the values do not agree. What a run looks at is a call or the canonical codec, which
may also fail, so each of its checks comes down to one condition on an outcome: `OneWhen` says that
there is one finding where the condition holds and none elsewhere.
-/

namespace WireParity

/-- Two byte strings diverge nowhere exactly if they are the same. -/
theorem divergence?_eq_none_iff {expected actual : Bytes} :
    divergence? expected actual = none ↔ expected = actual := by
  induction expected generalizing actual with
  | nil => cases actual <;> simp [divergence?]
  | cons x xs ih =>
    cases actual with
    | nil => simp [divergence?]
    | cons y ys =>
      rw [divergence?]
      by_cases hsame : x = y
      · simp [hsame, ih]
      · simp [hsame]

/-- No mismatch of bytes means that they are the same. -/
theorem byteMismatch?_eq_none_iff {expected actual : Bytes} :
    byteMismatch? expected actual = none ↔ expected = actual := by
  rw [byteMismatch?, Option.map_eq_none_iff, divergence?_eq_none_iff]

/-- No mismatch of values means that they agree. -/
theorem valueMismatch?_eq_none_iff {shape : Shape} {s : Selections} {expected actual : Value} :
    valueMismatch? shape s expected actual = none ↔ expected.agrees actual = true := by
  rw [valueMismatch?, Option.map_eq_none_iff, Value.agrees, Option.isNone_iff_eq_none]

/-- There is one finding where something is wrong, and none where it is not. -/
structure OneWhen (findings : List Finding) (wrong : Prop) : Prop where
  one : wrong → findings.length = 1
  none : ¬wrong → findings = []

namespace OneWhen

variable {findings : List Finding} {wrong : Prop}

/-- One finding where something is wrong. -/
theorem singleton (finding : Finding) (hwrong : wrong) : OneWhen [finding] wrong :=
  ⟨fun _ => rfl, fun h => absurd hwrong h⟩

/-- No finding where nothing is wrong. -/
theorem nil (hright : ¬wrong) : OneWhen [] wrong := ⟨fun h => absurd h hright, fun _ => rfl⟩

/-- The condition may be put in other words. -/
theorem congr {other : Prop} (h : OneWhen findings wrong) (hiff : wrong ↔ other) :
    OneWhen findings other :=
  ⟨fun hother => h.one (hiff.mpr hother), fun hother => h.none fun hwrong => hother (hiff.mp hwrong)⟩

/-- Findings that are looked for in one mode only. -/
theorem inMode {mode looked : Mode} (h : OneWhen findings wrong) :
    OneWhen (if mode = looked then findings else []) (mode = looked ∧ wrong) := by
  by_cases hmode : mode = looked
  · rw [if_pos hmode]
    exact h.congr (by simp [hmode])
  · rw [if_neg hmode]
    exact nil fun hboth => hmode hboth.1

/-- There are no findings exactly where nothing is wrong. -/
theorem eq_nil_iff (h : OneWhen findings wrong) : findings = [] ↔ ¬wrong := by
  refine ⟨fun hempty hwrong => ?_, h.none⟩
  have hone := h.one hwrong
  rw [hempty] at hone
  cases hone

/-- There are findings exactly where something is wrong. -/
theorem ne_nil_iff (h : OneWhen findings wrong) : findings ≠ [] ↔ wrong := by
  rw [ne_eq, h.eq_nil_iff, not_not]

/-- Where something was found, something is wrong. -/
theorem of_mem (h : OneWhen findings wrong) {f : Finding} (hf : f ∈ findings) : wrong :=
  h.ne_nil_iff.mp (List.ne_nil_of_mem hf)

/-- A mismatch is one finding. -/
theorem ofMismatch {α : Type} (mismatch : Option α) (finding : α → Finding) :
    OneWhen (mismatch.map finding).toList (mismatch ≠ Option.none) := by
  cases mismatch with
  | none => exact nil fun h => h rfl
  | some m => exact singleton (finding m) (by simp)

end OneWhen

namespace TestVector

/-- Bytes that differ are one finding. -/
theorem oneWhen_byteFindings (phase : Phase) (subject : Subject) (expected actual : Bytes) :
    OneWhen (byteFindings phase subject expected actual) (expected ≠ actual) :=
  (OneWhen.ofMismatch _ _).congr (not_congr byteMismatch?_eq_none_iff)

/-- Values that do not agree are one finding. -/
theorem oneWhen_valueFindings (v : TestVector) (phase : Phase) (subject : Subject)
    (expected actual : Value) :
    OneWhen (v.valueFindings phase subject expected actual) (¬expected.agrees actual = true) :=
  (OneWhen.ofMismatch _ _).congr (not_congr valueMismatch?_eq_none_iff)

/-- The canonical codec has one finding where it does not encode the value to the expected bytes. -/
theorem oneWhen_oracleEncode (v : TestVector) :
    OneWhen v.oracleEncode (v.shape.encode v.value v.selections ≠ .ok v.expected) := by
  rw [oracleEncode]
  cases v.shape.encode v.value v.selections with
  | ok bytes =>
    refine (oneWhen_byteFindings .encode .oracle v.expected bytes).congr ?_
    rw [ne_eq, ne_eq, Except.ok.injEq, eq_comm]
  | error e => exact .singleton _ (by simp)

end TestVector

namespace Exercise

/-- A call that had to produce the expected bytes is one finding if it did not. -/
theorem oneWhen_bytesFindings (v : TestVector) (phase : Phase) (name : String)
    (outcome : Except AdapterFailure Bytes) :
    OneWhen (bytesFindings v phase name outcome) (outcome ≠ .ok v.expected) := by
  cases outcome with
  | ok bytes =>
    refine (TestVector.oneWhen_byteFindings phase (.adapter name) v.expected bytes).congr ?_
    rw [ne_eq, ne_eq, Except.ok.injEq, eq_comm]
  | error failure => exact .singleton _ (by simp)

/-- A call that had to produce the vector's value is one finding if it produced none that agrees. -/
theorem oneWhen_valueFindings (v : TestVector) (name : String)
    (outcome : Except AdapterFailure Value) :
    OneWhen (valueFindings v name outcome)
      (¬∃ value, outcome = .ok value ∧ v.value.agrees value = true) := by
  cases outcome with
  | ok value =>
    refine (v.oneWhen_valueFindings .decode (.adapter name) v.value value).congr (not_congr ?_)
    simp
  | error failure => exact .singleton _ (by simp)

end Exercise

end WireParity
