import WireParity.Proofs.Parity.FirstByte
import WireParity.Proofs.Parity.Reference

/-!
# Bytes after an encoding

A vector may hold more than the encoding of its value. Decoding stops where the encoding ends,
whatever the rest looks like, so the value is never in question; what is, are the bytes that encoders
are held to. Where trailing bytes are allowed these are the encoding, for the canonical codec as for
every call of an adapter, and nothing is found. Where they are not, the whole blob is expected: every
encoder falls short of it at the same place, and the canonical codec says how much was left over.
-/

namespace WireParity

/-- Bytes diverge from their own beginning where that ends. -/
theorem divergence?_append_self {front tail : Bytes} (htail : tail ≠ []) :
    divergence? (front ++ tail) front = some front.length := by
  induction front with
  | nil =>
    cases tail with
    | nil => exact absurd rfl htail
    | cons b rest => rfl
  | cons b front ih => simp [divergence?, ih]

/-- What is wrong with an encoding where more bytes after it were expected. -/
def shortfall (front tail : Bytes) : ByteMismatch where
  offset := front.length
  expectedByte := tail.head?
  actualByte := none
  expectedLength := front.length + tail.length
  actualLength := front.length
  expectedHex := Hex.encode (front ++ tail)
  actualHex := Hex.encode front

/-- An encoding falls short of itself with more bytes after it. -/
theorem byteMismatch?_append_self {front tail : Bytes} (htail : tail ≠ []) :
    byteMismatch? (front ++ tail) front = some (shortfall front tail) := by
  rw [byteMismatch?, divergence?_append_self htail, Option.map_some, getElem?_length_append,
    List.getElem?_eq_none (Nat.le_refl _), List.length_append, shortfall]

/-- The finding of an encoder that falls short of the expected bytes. -/
def shortfallFinding (phase : Phase) (subject : Subject) (front tail : Bytes) : Finding :=
  ⟨phase, subject, .bytes (shortfall front tail)⟩

namespace TestVector

/-- The bytes of a vector are an encoding of its value and a tail. What is decoded from them is the
value as the encoding holds it. -/
structure Trailed (v : TestVector) (front tail : Bytes) (back : Value) : Prop where
  bytes : v.bytes = front ++ tail
  encode : v.shape.encode v.value v.selections = .ok front
  decode : v.shape.decodeFront v.bytes v.selections = .ok (back, front.length)
  agrees : v.value.agrees back = true
  distinct : back.DistinctFields
  reencode : v.shape.encode back v.selections = .ok front

/-- In a validated shape, an encoding with a tail is decoded and encoded again as it was. -/
theorem exists_trailed {v : TestVector} {front tail : Bytes} (hvalid : v.shape.validate = .ok ())
    (hdistinct : v.value.DistinctFields)
    (hencode : v.shape.encode v.value v.selections = .ok front) (hbytes : v.bytes = front ++ tail) :
    ∃ back, v.Trailed front tail back := by
  obtain ⟨back, hback, hmatch⟩ := Shape.writesMatches v.selections v.shape _ v.value front hdistinct
    (Shape.encode_eq_ok_iff.mp hencode)
  have hdecode : v.shape.decodeFront v.bytes v.selections = .ok (back, front.length) :=
    Shape.decodeFront_eq_ok_iff.mpr ⟨front, tail, hbytes, rfl, hback⟩
  exact ⟨back, hbytes, hencode, hdecode, hmatch.agrees,
    Shape.distinctFields_of_decodeFront hvalid hdecode, Shape.encode_of_denotes hvalid hback⟩

variable {v : TestVector} {front tail : Bytes} {back : Value}

/-- The decoded value is no finding. -/
theorem Trailed.valueFindings_eq_nil (h : v.Trailed front tail back) (phase : Phase)
    (subject : Subject) : v.valueFindings phase subject v.value back = [] :=
  (v.oneWhen_valueFindings phase subject v.value back).none (not_not_intro h.agrees)

section Allowed

variable (h : v.Trailed front tail back) (hallow : v.allowTrailing = true)
include h hallow

/-- Where bytes may trail, the encoding is expected. -/
theorem Trailed.expected_of_allowed : v.expected = front := by
  rw [← (Expects.consumed hallow h.decode).eq_expected, h.bytes, List.take_left]

/-- Where bytes may trail, an encoder that writes the encoding is right. -/
theorem Trailed.byteFindings_of_allowed (phase : Phase) (subject : Subject) :
    byteFindings phase subject v.expected front = [] := by
  rw [h.expected_of_allowed hallow]
  exact (oneWhen_byteFindings phase subject front front).none (fun hne => hne rfl)

/-- Where bytes may trail, the canonical codec agrees with the vector. -/
theorem Trailed.oracleFindings_of_allowed : v.oracleFindings = [] := by
  simp [oracleFindings, oracleEncode, oracleDecode, h.encode, h.decode, hallow,
    h.byteFindings_of_allowed hallow, h.valueFindings_eq_nil]

end Allowed

section Refused

variable (h : v.Trailed front tail back) (htail : tail ≠ []) (hallow : v.allowTrailing = false)
include h htail hallow

/-- Where no bytes may trail, an encoder that writes the encoding falls short. -/
theorem Trailed.byteFindings_of_refused (phase : Phase) (subject : Subject) :
    byteFindings phase subject v.expected front = [shortfallFinding phase subject front tail] := by
  rw [← (Expects.whole hallow).eq_expected, h.bytes, byteFindings, byteMismatch?_append_self htail]
  rfl

/-- Where no bytes may trail, the canonical codec finds its encoding short and bytes left over. -/
theorem Trailed.oracleFindings_of_refused :
    v.oracleFindings = [shortfallFinding .encode .oracle front tail,
      ⟨.decode, .oracle, .trailing front.length (front.length + tail.length)⟩] := by
  have hlength : v.bytes.length = front.length + tail.length := by
    rw [h.bytes, List.length_append]
  have hless : front.length < front.length + tail.length :=
    Nat.lt_add_of_pos_right (List.length_pos_of_ne_nil htail)
  simp [oracleFindings, oracleEncode, oracleDecode, h.encode, h.decode, hallow,
    h.byteFindings_of_refused htail hallow, h.valueFindings_eq_nil, hlength, hless]

end Refused

/-- What a reference adapter does with the vector. -/
def trailedExercise (c : Config) (front : Bytes) (back : Value) : Exercise where
  encoded := .ok front
  decoded := .ok back
  reencoded := if c.roundtrip then some (.ok front) else none

/-- A reference adapter that answers in time encodes, decodes and encodes again like the canonical
codec. -/
theorem Trailed.ofAnswers_endAs (h : v.Trailed front tail back) {c : Config} {name : String}
    {answers : Answers} (hend : answers.EndAs c.timeout ((Adapter.reference name).answers v)) :
    Exercise.ofAnswers c answers = trailedExercise c front back := by
  have hdecode : v.shape.decode v.bytes v.selections = .ok back :=
    v.decode_eq_ok_iff.mpr ⟨front.length, h.decode⟩
  simp [Exercise.ofAnswers, hend.settle_encode, hend.settle_decode, hend.settle_reencode,
    Adapter.reported, h.encode, hdecode, h.reencode, trailedExercise]

/-- Two reference adapters have nothing against each other. -/
theorem Trailed.allCrossFindings_eq_nil (h : v.Trailed front tail back) (c : Config)
    (given : List String) :
    Exercise.allCrossFindings v (given.map fun name => (name, trailedExercise c front back)) = [] := by
  have hbytes (subject : Subject) : byteFindings .crossEncode subject front front = [] :=
    (oneWhen_byteFindings .crossEncode subject front front).none (fun hne => hne rfl)
  have hself : back.agrees back = true := Value.agrees_eq_true_iff.mpr (.refl h.distinct)
  have hvalue (subject : Subject) : v.valueFindings .crossDecode subject back back = [] :=
    (v.oneWhen_valueFindings .crossDecode subject back back).none (not_not_intro hself)
  induction given with
  | nil => rfl
  | cons name rest ih =>
    rw [List.map_cons, Exercise.allCrossFindings, ih, List.append_nil]
    refine List.flatMap_eq_nil_iff.mpr fun other hother => ?_
    obtain ⟨_, _, rfl⟩ := List.mem_map.mp hother
    simp [Exercise.crossFindings, trailedExercise, hbytes, hvalue]

/-- The findings about a vector are those of the canonical codec and of each reference adapter. -/
theorem Trailed.findings_of_evaluate (h : v.Trailed front tail back) {c : Config}
    {given : List String} {answers : Adapter → Answers} {index : Nat} {r : VectorResult}
    (hr : v.evaluate c (given.map .reference) answers index = .ok r)
    (hends : ∀ name ∈ given,
      (answers (.reference name)).EndAs c.timeout ((Adapter.reference name).answers v)) :
    r.findings = v.oracleFindings ++
      given.flatMap fun name => (trailedExercise c front back).findings v name := by
  have hverdicts : (given.map Adapter.reference).map
      (fun a => (a.name, Exercise.ofAnswers c (answers a))) =
        given.map fun name => (name, trailedExercise c front back) := by
    rw [List.map_map]
    exact List.map_congr_left fun name hname => Prod.ext rfl (h.ofAnswers_endAs (hends name hname))
  rw [← (evaluate_eq_ok_iff.mp hr).2, hverdicts, findingsOf, h.allCrossFindings_eq_nil, ite_self,
    List.append_nil, List.flatMap_map]

/-- Where bytes may trail, a reference adapter is not found wrong. -/
theorem Trailed.findings_of_allowed (h : v.Trailed front tail back)
    (hallow : v.allowTrailing = true) (c : Config) (name : String) :
    (trailedExercise c front back).findings v name = [] := by
  have hbytes := h.byteFindings_of_allowed hallow
  cases hroundtrip : c.roundtrip <;>
    simp [Exercise.findings, Exercise.bytesFindings, Exercise.valueFindings, trailedExercise,
      hroundtrip, hbytes, h.valueFindings_eq_nil]

/-- Where no bytes may trail, a reference adapter falls short whenever it encodes. -/
theorem Trailed.findings_of_refused (h : v.Trailed front tail back) (htail : tail ≠ [])
    (hallow : v.allowTrailing = false) (c : Config) (name : String) :
    (trailedExercise c front back).findings v name =
      shortfallFinding .encode (.adapter name) front tail ::
        if c.roundtrip then [shortfallFinding .reencode (.adapter name) front tail] else [] := by
  have hbytes := h.byteFindings_of_refused htail hallow
  cases hroundtrip : c.roundtrip <;>
    simp [Exercise.findings, Exercise.bytesFindings, Exercise.valueFindings, trailedExercise,
      hroundtrip, hbytes, h.valueFindings_eq_nil]

end TestVector

namespace Parity

/-- A vector whose bytes are an encoding of its value and a tail, in a run of any number of reference
adapters that answer in time. Where bytes may trail, nothing is found. Where they may not, the canonical
codec has two findings, and each adapter has one for each time it encodes. The run returns a report
unless there is a name that threads cannot have. -/
theorem findings_of_trailing_bytes (c : Config) (given : List String)
    (answers : Nat → TestVector → Adapter → Answers) (corpus : Corpus) (index : Nat)
    (v : TestVector) (front tail : Bytes) (hcheck : c.check given = .ok ())
    (hv : corpus.vectors[index]? = some v) (hvalid : v.shape.validate = .ok ())
    (hdistinct : v.value.DistinctFields)
    (hencode : v.shape.encode v.value v.selections = .ok front) (hbytes : v.bytes = front ++ tail)
    (htail : tail ≠ [])
    (hends : ∀ name ∈ given,
      (answers index v (.reference name)).EndAs c.timeout ((Adapter.reference name).answers v)) :
    ((∃ report, runAnswered c (given.map .reference) answers corpus = .returned (.ok report)) ↔
      ∀ name ∈ given, (Adapter.reference name).Callable) ∧
    ∀ report, runAnswered c (given.map .reference) answers corpus = .returned (.ok report) →
      ∃ result : VectorResult, report.results[index]? = some result ∧
        (v.allowTrailing = true → result.findings = []) ∧
        (v.allowTrailing = false → result.findings =
          [shortfallFinding .encode .oracle front tail,
            ⟨.decode, .oracle, .trailing front.length (front.length + tail.length)⟩] ++
          given.flatMap fun name =>
            shortfallFinding .encode (.adapter name) front tail ::
              if c.roundtrip then [shortfallFinding .reencode (.adapter name) front tail]
              else []) := by
  refine ⟨(exists_report_reference_iff hcheck).trans (or_iff_right fun hnone => ?_),
    fun report hrun => ?_⟩
  · rw [hnone] at hv
    cases hv
  · obtain ⟨result, hresult, hr⟩ := result_of_vector (results_of_runAnswered hrun).2 hv
    obtain ⟨back, htrailed⟩ := TestVector.exists_trailed hvalid hdistinct hencode hbytes
    refine ⟨result, hresult, fun hallow => ?_, fun hallow => ?_⟩
    · rw [htrailed.findings_of_evaluate hr hends, htrailed.oracleFindings_of_allowed hallow,
        List.nil_append]
      exact List.flatMap_eq_nil_iff.mpr fun name _ => htrailed.findings_of_allowed hallow c name
    · rw [htrailed.findings_of_evaluate hr hends, htrailed.oracleFindings_of_refused htail hallow]
      simp only [htrailed.findings_of_refused htail hallow]

/-- A byte after a number of two bytes: four encodings fall short of it. -/
theorem findings_of_trailing_bytes_seven :
    let c := { Config.default with mode := .parity, roundtrip := true }
    let v := { Samples.vectorOfU16 "seven" 7 with bytes := [7, 0, 9] }
    c.check ["one", "two"] = .ok () ∧ v.shape.validate = .ok () ∧ v.value.DistinctFields ∧
      v.shape.encode v.value v.selections = .ok [7, 0] ∧ v.bytes = [7, 0] ++ [9] ∧
      ∃ (report : Report) (result : VectorResult),
        run c (["one", "two"].map .reference) ⟨"", .unset, [], [v]⟩ = .returned (.ok report) ∧
        report.results[0]? = some result ∧
        result.findings =
          [shortfallFinding .encode .oracle [7, 0] [9], ⟨.decode, .oracle, .trailing 2 3⟩,
            shortfallFinding .encode (.adapter "one") [7, 0] [9],
            shortfallFinding .reencode (.adapter "one") [7, 0] [9],
            shortfallFinding .encode (.adapter "two") [7, 0] [9],
            shortfallFinding .reencode (.adapter "two") [7, 0] [9]] := by
  intro c v
  have hcheck : c.check ["one", "two"] = .ok () := by decide
  have hvalid : v.shape.validate = .ok () := by decide
  have hdistinct : v.value.DistinctFields := by decide
  have hencode : v.shape.encode v.value v.selections = .ok [7, 0] := by decide
  have hbytes : v.bytes = [7, 0] ++ [9] := rfl
  obtain ⟨hreturns, hreports⟩ := findings_of_trailing_bytes c ["one", "two"] (fun _ v a => a.answers v)
    ⟨"", .unset, [], [v]⟩ 0 v [7, 0] [9] hcheck rfl hvalid hdistinct hencode hbytes (by decide)
    (fun name _ => Answers.endAs_reference c.timeout name v)
  obtain ⟨report, hrun⟩ := hreturns.mpr (by decide)
  obtain ⟨result, hresult, _, hrefused⟩ := hreports report hrun
  exact ⟨hcheck, hvalid, hdistinct, hencode, hbytes, report, result, hrun, hresult, hrefused rfl⟩

end Parity

end WireParity
