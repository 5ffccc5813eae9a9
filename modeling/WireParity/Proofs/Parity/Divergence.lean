import WireParity.Proofs.Codec.RoundTrip
import WireParity.Proofs.Parity.Findings
import WireParity.Proofs.Parity.Mismatch
import WireParity.Proofs.Parity.Session

/-!
# Every divergence is a finding, and nothing else is

What can go wrong with a vector is listed here without looking at findings: the canonical codec may
disagree with the corpus, the calls of an adapter may not come to the expected bytes or value, and
in parity mode two adapters may come to different results. `Accounts` says that a result holds
exactly these things, each as one finding and under its own phase and subject, whatever else went
wrong in the same vector. A run succeeds if none of them occurs in any vector.
-/

namespace WireParity

namespace Detail

/-- What was decoded is not what it should be: nothing at all, or another value. -/
def ofReading : Detail → Bool
  | codec _ _ _ => true
  | value _ => true
  | _ => false

/-- There are bytes left over. -/
def ofRest : Detail → Bool
  | trailing _ _ => true
  | _ => false

end Detail

namespace TestVector

/-- The bytes that encoding the vector's value has to produce. -/
inductive Expects (v : TestVector) : Bytes → Prop
  /-- All bytes count where none may trail. -/
  | whole : v.allowTrailing = false → Expects v v.bytes
  /-- Of bytes that may trail, those count that decoding takes. -/
  | consumed {value : Value} {count : Nat} : v.allowTrailing = true →
      v.shape.decodeFront v.bytes v.selections = .ok (value, count) → Expects v (v.bytes.take count)
  /-- Where decoding fails, the size of the shape says how many count. -/
  | sized {e : CodecError} {size : Nat} : v.allowTrailing = true →
      v.shape.decodeFront v.bytes v.selections = .error e →
      v.shape.size v.selections = .ok size → size ≤ v.bytes.length → Expects v (v.bytes.take size)
  /-- A size of more bytes than there are says nothing. -/
  | oversized {e : CodecError} {size : Nat} : v.allowTrailing = true →
      v.shape.decodeFront v.bytes v.selections = .error e →
      v.shape.size v.selections = .ok size → v.bytes.length < size → Expects v v.bytes
  /-- Where there is no size either, all bytes count. -/
  | unsized {e fault : CodecError} : v.allowTrailing = true →
      v.shape.decodeFront v.bytes v.selections = .error e →
      v.shape.size v.selections = .error fault → Expects v v.bytes

/-- What a vector expects is what a run holds encoders to. -/
theorem Expects.eq_expected {v : TestVector} {bytes : Bytes} (h : v.Expects bytes) :
    bytes = v.expected := by
  cases h with
  | whole hallow =>
    rw [expected]
    cases v.covered? <;> simp [hallow]
  | @consumed value count hallow hdecode =>
    obtain ⟨front, rest, hbytes, hcount, _⟩ := Shape.decodeFront_eq_ok_iff.mp hdecode
    have hfits : count ≤ v.bytes.length := by
      rw [hbytes, hcount, List.length_append]
      exact Nat.le_add_right _ _
    simp [expected, covered?, hdecode, hallow, hfits]
  | sized hallow hdecode hsize hfits =>
    simp [expected, covered?, hdecode, hsize, Except.toOption, hallow, hfits]
  | oversized hallow hdecode hsize hless =>
    simp [expected, covered?, hdecode, hsize, Except.toOption, Nat.not_le.mpr hless]
  | unsized hallow hdecode hsize =>
    simp [expected, covered?, hdecode, hsize, Except.toOption]

/-- There are bytes that a vector expects. -/
theorem exists_expects (v : TestVector) : ∃ bytes, v.Expects bytes := by
  cases hallow : v.allowTrailing with
  | false => exact ⟨_, .whole hallow⟩
  | true =>
    cases hdecode : v.shape.decodeFront v.bytes v.selections with
    | ok result => exact ⟨_, .consumed hallow hdecode⟩
    | error e =>
      cases hsize : v.shape.size v.selections with
      | error fault => exact ⟨_, .unsized hallow hdecode hsize⟩
      | ok size =>
        rcases Nat.lt_or_ge v.bytes.length size with hless | hfits
        · exact ⟨_, .oversized hallow hdecode hsize hless⟩
        · exact ⟨_, .sized hallow hdecode hsize hfits⟩

/-- A vector expects just the bytes that a run holds encoders to. -/
theorem expects_iff (v : TestVector) (bytes : Bytes) : v.Expects bytes ↔ bytes = v.expected := by
  refine ⟨Expects.eq_expected, fun hbytes => ?_⟩
  obtain ⟨bytes', hexpects⟩ := v.exists_expects
  rw [hbytes, ← hexpects.eq_expected]
  exact hexpects

variable (v : TestVector)

/-- The canonical codec does not encode the vector's value to the expected bytes. -/
def Misencoded : Prop := v.shape.encode v.value v.selections ≠ .ok v.expected

/-- The canonical codec does not decode the vector's bytes to a value in parity with its own. -/
def Misdecoded : Prop :=
  ¬∃ value, v.shape.decode v.bytes v.selections = .ok value ∧ v.value.agrees value = true

/-- Decoding leaves bytes over, and none may trail. -/
def Overlong : Prop :=
  v.allowTrailing = false ∧ ∃ value count,
    v.shape.decodeFront v.bytes v.selections = .ok (value, count) ∧ count < v.bytes.length

end TestVector

namespace Answers

variable (c : Config) (v : TestVector) (x y : Answers)

/-- Encoding the vector's value does not come to the expected bytes in time. -/
def Misencodes : Prop := x.encode.settle c.timeout ≠ .ok v.expected

/-- Decoding the vector's bytes does not come to a value in parity with the vector's in time. -/
def Misdecodes : Prop :=
  ¬∃ value, x.decode.settle c.timeout = .ok value ∧ v.value.agrees value = true

/-- Decoded values are to be encoded again, there is one, and encoding it does not come to the
expected bytes in time. -/
def Misreencodes : Prop :=
  c.roundtrip = true ∧ ∃ value, x.decode.settle c.timeout = .ok value ∧
    (x.reencode value).settle c.timeout ≠ .ok v.expected

/-- Two adapters encode the vector's value to different bytes. -/
def EncodesApart : Prop :=
  ∃ a b, x.encode.settle c.timeout = .ok a ∧ y.encode.settle c.timeout = .ok b ∧ a ≠ b

/-- Two adapters decode the vector's bytes to values that are not in parity. -/
def DecodesApart : Prop :=
  ∃ a b, x.decode.settle c.timeout = .ok a ∧ y.decode.settle c.timeout = .ok b ∧
    ¬a.agrees b = true

end Answers

/-- Something about a vector is not as it should be. -/
inductive Diverges (c : Config) (v : TestVector) (adapters : List Adapter)
    (answers : Adapter → Answers) : Prop
  | oracleEncode : v.Misencoded → Diverges c v adapters answers
  | oracleDecode : v.Misdecoded → Diverges c v adapters answers
  | oracleRest : v.Overlong → Diverges c v adapters answers
  | encode {a : Adapter} : a ∈ adapters → (answers a).Misencodes c v → Diverges c v adapters answers
  | decode {a : Adapter} : a ∈ adapters → (answers a).Misdecodes c v → Diverges c v adapters answers
  | reencode {a : Adapter} : a ∈ adapters → (answers a).Misreencodes c v →
      Diverges c v adapters answers
  | crossEncode {a b : Adapter} : c.mode = .parity → [a, b].Sublist adapters →
      (answers a).EncodesApart c (answers b) → Diverges c v adapters answers
  | crossDecode {a b : Adapter} : c.mode = .parity → [a, b].Sublist adapters →
      (answers a).DecodesApart c (answers b) → Diverges c v adapters answers

/-- A result tells of what is not as it should be with a vector, and of nothing else. -/
structure VectorResult.Accounts (r : VectorResult) (c : Config) (v : TestVector)
    (adapters : List Adapter) (answers : Adapter → Answers) : Prop where
  oracleEncode : OneWhen (r.about .encode .oracle) v.Misencoded
  oracleDecode : OneWhen ((r.about .decode .oracle).filter fun f => f.detail.ofReading) v.Misdecoded
  oracleRest : OneWhen ((r.about .decode .oracle).filter fun f => f.detail.ofRest) v.Overlong
  encode : ∀ a ∈ adapters,
    OneWhen (r.about .encode (.adapter a.name)) ((answers a).Misencodes c v)
  decode : ∀ a ∈ adapters,
    OneWhen (r.about .decode (.adapter a.name)) ((answers a).Misdecodes c v)
  reencode : ∀ a ∈ adapters,
    OneWhen (r.about .reencode (.adapter a.name)) ((answers a).Misreencodes c v)
  /-- Pairs are named in the order of the adapters, so each pair has one name. -/
  crossEncode : ∀ a b, [a, b].Sublist adapters →
    OneWhen (r.about .crossEncode (.pair a.name b.name))
      (c.mode = .parity ∧ (answers a).EncodesApart c (answers b))
  crossDecode : ∀ a b, [a, b].Sublist adapters →
    OneWhen (r.about .crossDecode (.pair a.name b.name))
      (c.mode = .parity ∧ (answers a).DecodesApart c (answers b))
  /-- No finding is about anything else. -/
  nothingElse : ∀ f ∈ r.findings,
    (f.subject = .oracle ∧ (f.phase = .encode ∨
      f.phase = .decode ∧ (f.detail.ofReading = true ∨ f.detail.ofRest = true))) ∨
    (∃ a ∈ adapters, f.subject = .adapter a.name ∧
      (f.phase = .encode ∨ f.phase = .decode ∨ f.phase = .reencode)) ∨
    (c.mode = .parity ∧ ∃ a b, [a, b].Sublist adapters ∧ f.subject = .pair a.name b.name ∧
      (f.phase = .crossEncode ∨ f.phase = .crossDecode))

namespace TestVector

variable (v : TestVector) (phase : Phase) (subject : Subject)

/-- A mismatch of values tells of what was decoded. -/
theorem filter_valueFindings (expected actual : Value) :
    ((v.valueFindings phase subject expected actual).filter fun f => f.detail.ofReading) =
        v.valueFindings phase subject expected actual ∧
      ((v.valueFindings phase subject expected actual).filter fun f => f.detail.ofRest) = [] := by
  rw [valueFindings]
  cases valueMismatch? v.shape v.selections expected actual with
  | none => exact ⟨rfl, rfl⟩
  | some m => exact ⟨rfl, rfl⟩

/-- Decoding comes to a value exactly if it does so from the front. -/
theorem decode_eq_ok_iff {value : Value} :
    v.shape.decode v.bytes v.selections = .ok value ↔
      ∃ count, v.shape.decodeFront v.bytes v.selections = .ok (value, count) := by
  rw [Shape.decode, map_eq_ok_iff]
  refine ⟨?_, ?_⟩
  · intro h
    obtain ⟨⟨other, count⟩, hdecode, rfl⟩ := h
    exact ⟨count, hdecode⟩
  · intro h
    obtain ⟨count, hdecode⟩ := h
    exact ⟨(value, count), hdecode, rfl⟩

/-- What the canonical codec finds about what it decoded. -/
theorem filter_reading_oracleDecode :
    (v.oracleDecode.filter fun f => f.detail.ofReading) =
      match v.shape.decodeFront v.bytes v.selections with
      | .ok (value, _) => v.valueFindings .decode .oracle v.value value
      | .error e => [codecFinding .decode e] := by
  rw [oracleDecode]
  cases v.shape.decodeFront v.bytes v.selections with
  | error e => rfl
  | ok result =>
    obtain ⟨value, count⟩ := result
    simp only [List.filter_append, (v.filter_valueFindings .decode .oracle v.value value).1]
    split <;> exact List.append_nil _

/-- What the canonical codec finds about what is left over. -/
theorem filter_rest_oracleDecode :
    (v.oracleDecode.filter fun f => f.detail.ofRest) =
      match v.shape.decodeFront v.bytes v.selections with
      | .ok (_, count) =>
        if count < v.bytes.length ∧ !v.allowTrailing then
          [⟨.decode, .oracle, .trailing count v.bytes.length⟩]
        else []
      | .error _ => [] := by
  rw [oracleDecode]
  cases v.shape.decodeFront v.bytes v.selections with
  | error e => rfl
  | ok result =>
    obtain ⟨value, count⟩ := result
    simp only [List.filter_append, (v.filter_valueFindings .decode .oracle v.value value).2,
      List.nil_append]
    split <;> rfl

/-- The canonical codec has one finding about what it decoded where that is wrong. -/
theorem oneWhen_oracleDecode :
    OneWhen (v.oracleDecode.filter fun f => f.detail.ofReading) v.Misdecoded := by
  rw [filter_reading_oracleDecode, Misdecoded]
  simp only [decode_eq_ok_iff]
  cases v.shape.decodeFront v.bytes v.selections with
  | error e => exact .singleton (codecFinding .decode e) (by simp)
  | ok result =>
    obtain ⟨value, count⟩ := result
    refine (v.oneWhen_valueFindings .decode .oracle v.value value).congr (not_congr ?_)
    simp

/-- The canonical codec has one finding about what is left over where nothing may be. -/
theorem oneWhen_oracleRest :
    OneWhen (v.oracleDecode.filter fun f => f.detail.ofRest) v.Overlong := by
  rw [filter_rest_oracleDecode, Overlong]
  cases v.shape.decodeFront v.bytes v.selections with
  | error e => exact .nil (by simp)
  | ok result =>
    obtain ⟨value, count⟩ := result
    by_cases hover : count < v.bytes.length ∧ (!v.allowTrailing) = true
    · simp only [if_pos hover]
      exact .singleton _ ⟨by simpa using hover.2, value, count, rfl, hover.1⟩
    · simp only [if_neg hover]
      refine .nil fun h => hover ?_
      obtain ⟨hallow, _, _, heq, hless⟩ := h
      cases heq
      exact ⟨hless, by simpa using hallow⟩

/-- What the canonical codec finds when it decodes is about what it decoded or what is left. -/
theorem detail_of_mem_oracleDecode {f : Finding} (hf : f ∈ v.oracleDecode) :
    f.detail.ofReading = true ∨ f.detail.ofRest = true := by
  rw [oracleDecode] at hf
  cases hdecode : v.shape.decodeFront v.bytes v.selections with
  | error e =>
    rw [hdecode] at hf
    cases List.mem_singleton.mp hf
    exact Or.inl rfl
  | ok result =>
    rw [hdecode] at hf
    rcases List.mem_append.mp hf with hvalue | hrest
    · have hreading := (v.filter_valueFindings .decode .oracle v.value result.1).1
      rw [← hreading, List.mem_filter] at hvalue
      exact Or.inl hvalue.2
    · split at hrest
      · cases List.mem_singleton.mp hrest
        exact Or.inr rfl
      · cases hrest

end TestVector

namespace Exercise

variable (c : Config) (v : TestVector) (name : String) (x : Answers)

/-- Encoding a decoded value again is one finding if that was asked for and went wrong. -/
theorem oneWhen_reencodeFindings :
    OneWhen (reencodeFindings v name (ofAnswers c x)) (x.Misreencodes c v) := by
  rw [reencodeFindings, ofAnswers, Answers.Misreencodes]
  cases c.roundtrip with
  | false => exact .nil (by simp)
  | true =>
    cases x.decode.settle c.timeout with
    | error failure => exact .nil (by simp)
    | ok value =>
      refine (oneWhen_bytesFindings v .reencode name
        ((x.reencode value).settle c.timeout)).congr ?_
      simp

/-- Two encodings are one finding if both adapters came to one and they differ. -/
theorem oneWhen_crossEncodeFindings (other : String) (y : Answers) :
    OneWhen (crossEncodeFindings (name, ofAnswers c x) (other, ofAnswers c y))
      (x.EncodesApart c y) := by
  rw [Answers.EncodesApart]
  simp only [crossEncodeFindings, ofAnswers]
  cases x.encode.settle c.timeout with
  | error failure => exact .nil (by simp)
  | ok a =>
    cases y.encode.settle c.timeout with
    | error failure => exact .nil (by simp)
    | ok b =>
      refine (TestVector.oneWhen_byteFindings .crossEncode (.pair name other) a b).congr ?_
      simp

/-- Two decoded values are one finding if both adapters came to one and they do not agree. -/
theorem oneWhen_crossDecodeFindings (other : String) (y : Answers) :
    OneWhen (crossDecodeFindings v (name, ofAnswers c x) (other, ofAnswers c y))
      (x.DecodesApart c y) := by
  rw [Answers.DecodesApart]
  simp only [crossDecodeFindings, ofAnswers]
  cases x.decode.settle c.timeout with
  | error failure => exact .nil (by simp)
  | ok a =>
    cases y.decode.settle c.timeout with
    | error failure => exact .nil (by simp)
    | ok b =>
      refine (v.oneWhen_valueFindings .crossDecode (.pair name other) a b).congr ?_
      simp

end Exercise

namespace Parity

variable {c : Config} {adapters : List Adapter}

/-- The result for a vector accounts for it, whatever the adapters answer. -/
theorem accounts_of_evaluate (hcheck : c.check (names adapters) = .ok ()) {v : TestVector}
    {answers : Adapter → Answers} {index : Nat} {r : VectorResult}
    (hr : v.evaluate c adapters answers index = .ok r) : r.Accounts c v adapters answers where
  oracleEncode := by
    rw [TestVector.about_oracle hr]
    exact v.oneWhen_oracleEncode
  oracleDecode := by
    rw [TestVector.about_oracle hr]
    exact v.oneWhen_oracleDecode
  oracleRest := by
    rw [TestVector.about_oracle hr]
    exact v.oneWhen_oracleRest
  encode a ha := by
    rw [TestVector.about_adapter hr hcheck ha]
    exact Exercise.oneWhen_bytesFindings v .encode a.name _
  decode a ha := by
    rw [TestVector.about_adapter hr hcheck ha]
    exact Exercise.oneWhen_valueFindings v a.name _
  reencode a ha := by
    rw [TestVector.about_adapter hr hcheck ha]
    exact Exercise.oneWhen_reencodeFindings c v a.name (answers a)
  crossEncode a b hpair := by
    rw [TestVector.about_pair hr hcheck hpair]
    exact (Exercise.oneWhen_crossEncodeFindings c a.name (answers a) b.name (answers b)).inMode
  crossDecode a b hpair := by
    rw [TestVector.about_pair hr hcheck hpair]
    exact (Exercise.oneWhen_crossDecodeFindings c v a.name (answers a) b.name (answers b)).inMode
  nothingElse f hf := by
    obtain ⟨-, -, -, done, hdone, hfindings⟩ := TestVector.exists_exercises_of_evaluate hr
    obtain ⟨-, rfl⟩ := TestVector.exercises_eq_ok_iff.mp hdone
    rcases v.exists_subject_of_mem_findingsOf c (hfindings ▸ hf) with
      ⟨hsubject, hphase⟩ | ⟨entry, hentry, hsubject⟩ | ⟨hmode, first, second, hpair, hsubject⟩
    · refine Or.inl ⟨hsubject, hphase.imp_right fun hdecode => ⟨hdecode, ?_⟩⟩
      have hmem : f ∈ r.about .decode .oracle := mem_select.mpr ⟨hf, hdecode, hsubject⟩
      rw [TestVector.about_oracle hr] at hmem
      exact v.detail_of_mem_oracleDecode hmem
    · obtain ⟨a, ha, rfl⟩ := List.mem_map.mp hentry
      exact Or.inr (Or.inl ⟨a, ha, hsubject⟩)
    · obtain ⟨pair, hsublist, hmap⟩ := List.sublist_map_iff.mp hpair
      obtain ⟨a, _, rfl, rfl, htail⟩ := List.map_eq_cons_iff.mp hmap.symm
      obtain ⟨b, _, rfl, rfl, hnil⟩ := List.map_eq_cons_iff.mp htail
      cases List.map_eq_nil_iff.mp hnil
      exact Or.inr (Or.inr ⟨hmode, a, b, hsublist, hsubject⟩)

end Parity

namespace VectorResult.Accounts

variable {r : VectorResult} {c : Config} {v : TestVector} {adapters : List Adapter}
  {answers : Adapter → Answers}

/-- Whatever is wrong is found. -/
theorem findings_ne_nil (h : r.Accounts c v adapters answers)
    (hdiverges : Diverges c v adapters answers) : r.findings ≠ [] := by
  intro hnone
  have habout (phase : Phase) (subject : Subject) : r.about phase subject = [] := by
    rw [about, hnone]
    rfl
  cases hdiverges with
  | oracleEncode hwrong => exact h.oracleEncode.ne_nil_iff.mpr hwrong (habout _ _)
  | oracleDecode hwrong =>
    refine h.oracleDecode.ne_nil_iff.mpr hwrong ?_
    rw [habout, List.filter_nil]
  | oracleRest hwrong =>
    refine h.oracleRest.ne_nil_iff.mpr hwrong ?_
    rw [habout, List.filter_nil]
  | encode ha hwrong => exact (h.encode _ ha).ne_nil_iff.mpr hwrong (habout _ _)
  | decode ha hwrong => exact (h.decode _ ha).ne_nil_iff.mpr hwrong (habout _ _)
  | reencode ha hwrong => exact (h.reencode _ ha).ne_nil_iff.mpr hwrong (habout _ _)
  | crossEncode hmode hpair hwrong =>
    exact (h.crossEncode _ _ hpair).ne_nil_iff.mpr ⟨hmode, hwrong⟩ (habout _ _)
  | crossDecode hmode hpair hwrong =>
    exact (h.crossDecode _ _ hpair).ne_nil_iff.mpr ⟨hmode, hwrong⟩ (habout _ _)

/-- Whatever is found is wrong. -/
theorem diverges_of_mem (h : r.Accounts c v adapters answers) {f : Finding}
    (hf : f ∈ r.findings) : Diverges c v adapters answers := by
  have hmem : f ∈ r.about f.phase f.subject := mem_select.mpr ⟨hf, rfl, rfl⟩
  rcases h.nothingElse f hf with ⟨hsubject, hphase | ⟨hphase, hreading | hrest⟩⟩ |
      ⟨a, ha, hsubject, hphase⟩ | ⟨hmode, a, b, hpair, hsubject, hphase⟩
  all_goals rw [hsubject] at hmem
  · rw [hphase] at hmem
    exact .oracleEncode (h.oracleEncode.of_mem hmem)
  · rw [hphase] at hmem
    exact .oracleDecode (h.oracleDecode.of_mem (List.mem_filter.mpr ⟨hmem, hreading⟩))
  · rw [hphase] at hmem
    exact .oracleRest (h.oracleRest.of_mem (List.mem_filter.mpr ⟨hmem, hrest⟩))
  · rcases hphase with hphase | hphase | hphase
    all_goals rw [hphase] at hmem
    · exact .encode ha ((h.encode a ha).of_mem hmem)
    · exact .decode ha ((h.decode a ha).of_mem hmem)
    · exact .reencode ha ((h.reencode a ha).of_mem hmem)
  · rcases hphase with hphase | hphase
    all_goals rw [hphase] at hmem
    · exact .crossEncode hmode hpair ((h.crossEncode a b hpair).of_mem hmem).2
    · exact .crossDecode hmode hpair ((h.crossDecode a b hpair).of_mem hmem).2

/-- A vector passes exactly if nothing is wrong with it. -/
theorem passed_iff (h : r.Accounts c v adapters answers) :
    r.passed = true ↔ ¬Diverges c v adapters answers := by
  rw [VectorResult.passed, List.isEmpty_iff]
  refine ⟨fun hnone hdiverges => h.findings_ne_nil hdiverges hnone, fun hright => ?_⟩
  exact List.eq_nil_iff_forall_not_mem.mpr fun f hf => hright (h.diverges_of_mem hf)

end VectorResult.Accounts

namespace Parity

/-- A report is a success exactly if nothing is wrong with any vector. -/
theorem success_iff_not_diverges {c : Config} {adapters : List Adapter}
    {answers : Nat → TestVector → Adapter → Answers} {corpus : Corpus} {report : Report}
    (hcheck : c.check (names adapters) = .ok ())
    (hresults : evaluateFrom c adapters answers 0 corpus.vectors = .ok report.results) :
    report.success = true ↔ ∀ (index : Nat) (v : TestVector), corpus.vectors[index]? = some v →
      ¬Diverges c v adapters (answers index v) := by
  rw [success_iff hresults]
  refine forall_congr' fun index => forall_congr' fun v => forall_congr' fun hv => ?_
  obtain ⟨r, -, hr⟩ := result_of_vector hresults hv
  rw [← (accounts_of_evaluate hcheck hr).passed_iff, hr]
  simp

/-- Whatever the adapters answer to whichever call, a run under an accepted configuration reports every
divergence and nothing else. It returns a report unless there is a vector and an adapter that cannot be
called for it. The report has one result for each vector, which accounts for it, and it is a success
exactly if nothing is wrong with any. -/
theorem findings_eq_divergences (c : Config) (adapters : List Adapter)
    (answers : Nat → TestVector → Adapter → Answers) (corpus : Corpus)
    (hcheck : c.check (names adapters) = .ok ()) (hstart : ∀ a ∈ adapters, a.start = .started) :
    ((∃ report, runAnswered c adapters answers corpus = .returned (.ok report)) ↔
      corpus.vectors = [] ∨ ∀ a ∈ adapters, a.Callable) ∧
    ∀ report, runAnswered c adapters answers corpus = .returned (.ok report) →
      report.results.length = corpus.vectors.length ∧
      (∀ (index : Nat) (v : TestVector), corpus.vectors[index]? = some v →
        ∃ result : VectorResult, report.results[index]? = some result ∧
          (∀ bytes, v.Expects bytes ↔ bytes = v.expected) ∧
          result.Accounts c v adapters (answers index v)) ∧
      (report.success = true ↔ ∀ (index : Nat) (v : TestVector), corpus.vectors[index]? = some v →
        ¬Diverges c v adapters (answers index v)) ∧
      (report.exitCode = Report.exitSuccess ↔ report.success = true) ∧
      (report.exitCode = Report.exitFindings ↔ ¬report.success = true) := by
  refine ⟨?_, fun report hrun => ?_⟩
  · rw [exists_report_iff, and_iff_right hcheck, and_iff_right hstart]
  · have hresults := (results_of_runAnswered hrun).2
    refine ⟨length_of_results hresults, fun index v hv => ?_,
      success_iff_not_diverges hcheck hresults, ?_, ?_⟩
    · obtain ⟨result, hresult, hevaluate⟩ := result_of_vector hresults hv
      exact ⟨result, hresult, v.expects_iff, accounts_of_evaluate hcheck hevaluate⟩
    · rw [Report.exitCode]
      cases report.success <;> decide
    · rw [Report.exitCode]
      cases report.success <;> decide

/-- An adapter that is too slow has one finding in each phase in which it is called, and the other
adapter has none. -/
theorem findings_eq_divergences_slow :
    let c := { Config.default with mode := .parity, roundtrip := true }
    let v := Samples.vectorOfU16 "seven" 7
    let fast := Adapter.reference "fast"
    let slow := Adapter.slow "slow" 20000
    c.check (names [fast, slow]) = .ok () ∧ (∀ a ∈ [fast, slow], a.start = .started) ∧
      ∃ (report : Report) (result : VectorResult),
        run c [fast, slow] ⟨"", .unset, [], [v]⟩ = .returned (.ok report) ∧
        report.results[0]? = some result ∧ report.exitCode = Report.exitFindings ∧
        (result.about .encode (.adapter "slow")).length = 1 ∧
        (result.about .decode (.adapter "slow")).length = 1 ∧
        result.about .reencode (.adapter "slow") = [] ∧
        result.about .encode (.adapter "fast") = [] := by
  intro c v fast slow
  have hcheck : c.check (names [fast, slow]) = .ok () := by decide
  have hstart : ∀ a ∈ [fast, slow], a.start = .started := by decide
  obtain ⟨hreturns, hreports⟩ := findings_eq_divergences c [fast, slow] (fun _ v a => a.answers v)
    ⟨"", .unset, [], [v]⟩ hcheck hstart
  obtain ⟨report, hrun⟩ := hreturns.mpr (Or.inr (by decide))
  obtain ⟨_, hresults, hsuccess, _, hfindings⟩ := hreports report hrun
  obtain ⟨result, hresult, _, haccounts⟩ := hresults 0 v rfl
  have hencodes : (slow.answers v).Misencodes c v := by
    intro h
    cases h
  have hdecodes : (slow.answers v).Misdecodes c v := by
    rintro ⟨_, h, _⟩
    cases h
  have hreencodes : ¬(slow.answers v).Misreencodes c v := by
    rintro ⟨_, _, h, _⟩
    cases h
  have hfast : ¬(fast.answers v).Misencodes c v := by
    intro h
    exact h (by decide)
  refine ⟨hcheck, hstart, report, result, hrun, hresult, ?_, ?_, ?_, ?_, ?_⟩
  · rw [hfindings, hsuccess]
    exact fun hnone => hnone 0 v rfl (.encode (by simp) hencodes)
  · exact (haccounts.encode slow (by simp)).one hencodes
  · exact (haccounts.decode slow (by simp)).one hdecodes
  · exact (haccounts.reencode slow (by simp)).none hreencodes
  · exact (haccounts.encode fast (by simp)).none hfast

end Parity

end WireParity
