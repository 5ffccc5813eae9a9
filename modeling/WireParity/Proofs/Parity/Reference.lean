import WireParity.Proofs.Parity.Divergence

/-!
# The reference adapter is the canonical codec

A run looks at the canonical codec and at adapters by different ways: the one is asked for what it
decodes from the front and for how much, the others are called under a time limit, report errors in
words, and may be asked to encode again what they decoded. Reference adapters that finish in time
nevertheless find what the canonical codec finds and nothing else, whatever the vector says: their
findings are the canonical ones retold under another name.

The third call is the exception, as the canonical codec has none. By the round trip from bytes it
gives back what was decoded, which is not what is expected exactly if bytes were left over.
-/

namespace WireParity

/-- A detail as an adapter tells of it: an error of the codec is told by its message. -/
def Detail.retold (name caseName : String) : Detail → Detail
  | codec _ _ message => failed name caseName message
  | detail => detail

/-- A finding as an adapter would have caused it. -/
def Finding.retold (name caseName : String) (f : Finding) : Finding :=
  ⟨f.phase, .adapter name, f.detail.retold name caseName⟩

/-- What a result holds about an adapter is what it holds about the canonical codec. -/
structure VectorResult.Mirrors (r : VectorResult) (c : Config) (v : TestVector) (name : String) :
    Prop where
  /-- The findings on encoding, retold. -/
  encode : r.about .encode (.adapter name) =
    (r.about .encode .oracle).map (Finding.retold name v.caseName)
  /-- The findings on what was decoded, retold. -/
  decode : r.about .decode (.adapter name) =
    ((r.about .decode .oracle).filter fun f => f.detail.ofReading).map
      (Finding.retold name v.caseName)
  /-- The third call goes wrong where it is made and the canonical codec had bytes left over. -/
  reencode : r.about .reencode (.adapter name) ≠ [] ↔
    c.roundtrip = true ∧ ((r.about .decode .oracle).filter fun f => f.detail.ofRest) ≠ []

/-- An adapter that mirrors the canonical codec is not found wrong where that is not. -/
theorem VectorResult.Mirrors.about_eq_nil {r : VectorResult} {c : Config} {v : TestVector}
    {name : String} (h : r.Mirrors c v name) (hnone : ∀ f ∈ r.findings, f.subject ≠ .oracle)
    {phase : Phase} (hphase : phase = .encode ∨ phase = .decode ∨ phase = .reencode) :
    r.about phase (.adapter name) = [] := by
  have horacle (phase : Phase) : r.about phase .oracle = [] := select_eq_nil hnone
  rcases hphase with rfl | rfl | rfl
  · rw [h.encode, horacle, List.map_nil]
  · rw [h.decode, horacle, List.filter_nil, List.map_nil]
  · by_contra hsome
    have hrest := (h.reencode.mp hsome).2
    rw [horacle, List.filter_nil] at hrest
    exact hrest rfl

/-- All calls are answered in time, and end as those of another adapter do. -/
structure Answers.EndAs (limit : Duration) (x y : Answers) : Prop where
  encode : x.encode.elapsed.ns ≤ limit.ns ∧ x.encode.ending = y.encode.ending
  decode : x.decode.elapsed.ns ≤ limit.ns ∧ x.decode.ending = y.decode.ending
  reencode : ∀ value, (x.reencode value).elapsed.ns ≤ limit.ns ∧
    (x.reencode value).ending = (y.reencode value).ending

/-- Reference adapters answer at once. -/
theorem Answers.endAs_reference (limit : Duration) (name : String) (v : TestVector) :
    ((Adapter.reference name).answers v).EndAs limit ((Adapter.reference name).answers v) :=
  ⟨⟨Nat.zero_le limit.ns, rfl⟩, ⟨Nat.zero_le limit.ns, rfl⟩, fun _ => ⟨Nat.zero_le limit.ns, rfl⟩⟩

/-- What comes of a call that returns in time is what it returns. -/
theorem Call.settle_returned {α : Type} {limit : Duration} {call : Call α}
    {result : Except AdapterFailure α}
    (hcall : call.elapsed.ns ≤ limit.ns ∧ call.ending = .returned result) :
    call.settle limit = result := by
  rw [settle, if_neg (Nat.not_lt.mpr hcall.1), hcall.2]

/-- A result is reported as such. -/
theorem Adapter.reported_eq_ok_iff {α : Type} {result : Except CodecError α} {a : α} :
    reported result = .ok a ↔ result = .ok a := by
  cases result with
  | ok b => rw [reported, Except.ok.injEq, Except.ok.injEq]
  | error e => simp [reported]

namespace TestVector

variable (v : TestVector) (name : String)

/-- Mismatches of bytes are the same whoever is to blame. -/
theorem map_retold_byteFindings (phase : Phase) (expected actual : Bytes) :
    (byteFindings phase .oracle expected actual).map (Finding.retold name v.caseName) =
      byteFindings phase (.adapter name) expected actual := by
  rw [byteFindings, byteFindings]
  cases byteMismatch? expected actual <;> rfl

/-- Mismatches of values are the same whoever is to blame. -/
theorem map_retold_valueFindings (phase : Phase) (expected actual : Value) :
    (v.valueFindings phase .oracle expected actual).map (Finding.retold name v.caseName) =
      v.valueFindings phase (.adapter name) expected actual := by
  rw [valueFindings, valueFindings]
  cases valueMismatch? v.shape v.selections expected actual <;> rfl

/-- What is found about an encoding that is reported is what the canonical codec finds, retold. -/
theorem bytesFindings_reported :
    Exercise.bytesFindings v .encode name
        (Adapter.reported (v.shape.encode v.value v.selections)) =
      v.oracleEncode.map (Finding.retold name v.caseName) := by
  rw [oracleEncode]
  cases v.shape.encode v.value v.selections with
  | ok bytes => exact (v.map_retold_byteFindings name .encode v.expected bytes).symm
  | error e => rfl

/-- What is found about a value that is reported is what the canonical codec finds about it,
retold. -/
theorem valueFindings_reported :
    Exercise.valueFindings v name (Adapter.reported (v.shape.decode v.bytes v.selections)) =
      (v.oracleDecode.filter fun f => f.detail.ofReading).map (Finding.retold name v.caseName) := by
  rw [filter_reading_oracleDecode, Shape.decode]
  cases v.shape.decodeFront v.bytes v.selections with
  | ok result => exact (v.map_retold_valueFindings name .decode v.value result.1).symm
  | error e => rfl

/-- The bytes that were decoded are the expected ones unless some were left over. -/
theorem ne_expected_iff_overlong {front rest : Bytes} {value : Value}
    (hbytes : v.bytes = front ++ rest)
    (hdecode : v.shape.decodeFront v.bytes v.selections = .ok (value, front.length)) :
    front ≠ v.expected ↔ v.Overlong := by
  cases hallow : v.allowTrailing with
  | false =>
    rw [← (Expects.whole hallow).eq_expected]
    refine ⟨fun hne => ⟨hallow, value, front.length, hdecode, ?_⟩, fun hover hsame => ?_⟩
    · have hrest : rest ≠ [] := by
        rintro rfl
        exact hne (by rw [hbytes, List.append_nil])
      rw [hbytes, List.length_append]
      exact Nat.lt_add_of_pos_right (List.length_pos_of_ne_nil hrest)
    · obtain ⟨_, _, count, hdecode', hless⟩ := hover
      rw [hdecode] at hdecode'
      cases hdecode'
      exact absurd hless (by simp [← hsame])
  | true =>
    have htaken := (Expects.consumed hallow hdecode).eq_expected
    rw [hbytes, List.take_left] at htaken
    refine ⟨fun hne => absurd htaken hne, fun hover => ?_⟩
    rw [Overlong, hallow] at hover
    cases hover.1

end TestVector

namespace Answers

variable {c : Config} {v : TestVector} {name other : String} {x y : Answers}

section EndAs

variable {limit : Duration} (h : x.EndAs limit ((Adapter.reference name).answers v))
include h

/-- An encoding is what the canonical codec encodes. -/
theorem EndAs.settle_encode :
    x.encode.settle limit = Adapter.reported (v.shape.encode v.value v.selections) :=
  Call.settle_returned h.encode

/-- A decoded value is what the canonical codec decodes. -/
theorem EndAs.settle_decode :
    x.decode.settle limit = Adapter.reported (v.shape.decode v.bytes v.selections) :=
  Call.settle_returned h.decode

/-- A decoded value is encoded again as the canonical codec encodes it. -/
theorem EndAs.settle_reencode (value : Value) :
    (x.reencode value).settle limit = Adapter.reported (v.shape.encode value v.selections) :=
  Call.settle_returned (h.reencode value)

end EndAs

/-- The third call goes wrong if it is made and bytes were left over: encoding what was decoded
gives back the bytes that it was decoded from. -/
theorem misreencodes_iff_overlong (hvalid : v.shape.validate = .ok ())
    (hx : x.EndAs c.timeout ((Adapter.reference name).answers v)) :
    x.Misreencodes c v ↔ c.roundtrip = true ∧ v.Overlong := by
  rw [Misreencodes]
  refine and_congr_right fun _ => ?_
  simp only [hx.settle_decode, hx.settle_reencode, Adapter.reported_eq_ok_iff, ne_eq,
    v.decode_eq_ok_iff]
  refine ⟨fun hwrong => ?_, fun hover => ?_⟩
  · obtain ⟨value, ⟨count, hdecode⟩, hne⟩ := hwrong
    obtain ⟨front, rest, hbytes, rfl, hfront⟩ := Shape.decodeFront_eq_ok_iff.mp hdecode
    rw [Shape.encode_of_denotes hvalid hfront, Except.ok.injEq] at hne
    exact (v.ne_expected_iff_overlong hbytes hdecode).mp hne
  · obtain ⟨_, value, count, hdecode, _⟩ := id hover
    obtain ⟨front, rest, hbytes, rfl, hfront⟩ := Shape.decodeFront_eq_ok_iff.mp hdecode
    refine ⟨value, ⟨front.length, hdecode⟩, ?_⟩
    rw [Shape.encode_of_denotes hvalid hfront, Except.ok.injEq]
    exact (v.ne_expected_iff_overlong hbytes hdecode).mpr hover

/-- Reference adapters encode alike. -/
theorem not_encodesApart (hx : x.EndAs c.timeout ((Adapter.reference name).answers v))
    (hy : y.EndAs c.timeout ((Adapter.reference other).answers v)) : ¬x.EncodesApart c y := by
  intro hapart
  obtain ⟨a, b, ha, hb, hne⟩ := hapart
  rw [hx.settle_encode] at ha
  rw [hy.settle_encode, ha, Except.ok.injEq] at hb
  exact hne hb

/-- Reference adapters decode alike, and in a validated shape what they decode agrees with itself. -/
theorem not_decodesApart (hvalid : v.shape.validate = .ok ())
    (hx : x.EndAs c.timeout ((Adapter.reference name).answers v))
    (hy : y.EndAs c.timeout ((Adapter.reference other).answers v)) : ¬x.DecodesApart c y := by
  intro hapart
  obtain ⟨a, b, ha, hb, hne⟩ := hapart
  rw [hx.settle_decode] at ha
  rw [hy.settle_decode, ha, Except.ok.injEq] at hb
  subst hb
  obtain ⟨count, hdecode⟩ := v.decode_eq_ok_iff.mp (Adapter.reported_eq_ok_iff.mp ha)
  have hdistinct := Shape.distinctFields_of_decodeFront hvalid hdecode
  exact hne (Value.agrees_eq_true_iff.mpr (.refl hdistinct))

end Answers

namespace Parity

/-- The names of reference adapters are those that they were given. -/
theorem names_reference (given : List String) :
    names (given.map Adapter.reference) = given := by
  rw [names, List.map_map]
  exact List.map_id given

section Reference

variable {c : Config} {given : List String} {v : TestVector} {answers : Adapter → Answers}
  {index : Nat} {r : VectorResult} (hr : v.evaluate c (given.map .reference) answers index = .ok r)
  (hcheck : c.check given = .ok ()) (hvalid : v.shape.validate = .ok ())
  (hends : ∀ name ∈ given,
    (answers (.reference name)).EndAs c.timeout ((Adapter.reference name).answers v))
include hr hcheck hvalid hends

/-- A reference adapter that answers in time mirrors the canonical codec. -/
theorem mirrors_of_evaluate {name : String} (hname : name ∈ given) : r.Mirrors c v name := by
  rw [← names_reference given] at hcheck
  have hadapter : Adapter.reference name ∈ given.map Adapter.reference := List.mem_map_of_mem hname
  have hend := hends name hname
  have haccounts := accounts_of_evaluate hcheck hr
  refine ⟨?_, ?_, ?_⟩
  · rw [TestVector.about_oracle hr]
    refine (TestVector.about_adapter hr hcheck hadapter .encode).trans ?_
    simp only [hend.settle_encode]
    exact v.bytesFindings_reported name
  · rw [TestVector.about_oracle hr]
    refine (TestVector.about_adapter hr hcheck hadapter .decode).trans ?_
    simp only [hend.settle_decode]
    exact v.valueFindings_reported name
  · rw [haccounts.oracleRest.ne_nil_iff]
    exact (haccounts.reencode _ hadapter).ne_nil_iff.trans
      (Answers.misreencodes_iff_overlong hvalid hend)

/-- Reference adapters that answer in time do not differ from each other. -/
theorem subject_ne_pair {f : Finding} (hf : f ∈ r.findings) (first second : String) :
    f.subject ≠ .pair first second := by
  rw [← names_reference given] at hcheck
  have haccounts := accounts_of_evaluate hcheck hr
  rcases haccounts.nothingElse f hf with ⟨hsubject, _⟩ | ⟨a, _, hsubject, _⟩ |
      ⟨_, a, b, hpair, hsubject, hphase⟩
  · simp [hsubject]
  · simp [hsubject]
  · have hmem := mem_select.mpr ⟨hf, rfl, hsubject⟩
    obtain ⟨name, hname, rfl⟩ := List.mem_map.mp (hpair.subset List.mem_cons_self)
    obtain ⟨other, hother, rfl⟩ :=
      List.mem_map.mp (hpair.subset (List.mem_cons_of_mem _ List.mem_cons_self))
    rcases hphase with hphase | hphase
    all_goals rw [hphase] at hmem
    · exact absurd ((haccounts.crossEncode _ _ hpair).of_mem hmem).2
        (Answers.not_encodesApart (hends name hname) (hends other hother))
    · exact absurd ((haccounts.crossDecode _ _ hpair).of_mem hmem).2
        (Answers.not_decodesApart hvalid (hends name hname) (hends other hother))

/-- With reference adapters only, a vector passes exactly if the canonical codec finds nothing. -/
theorem passed_iff_of_reference :
    r.passed = true ↔ ∀ f ∈ r.findings, f.subject ≠ .oracle := by
  have hmirrors (name : String) (hname : name ∈ given) :=
    mirrors_of_evaluate hr hcheck hvalid hends hname
  have hpairs (f : Finding) (hf : f ∈ r.findings) := subject_ne_pair hr hcheck hvalid hends hf
  rw [← names_reference given] at hcheck
  rw [VectorResult.passed, List.isEmpty_iff]
  refine ⟨fun hnone f hf => ?_, fun hnone => List.eq_nil_iff_forall_not_mem.mpr fun f hf => ?_⟩
  · rw [hnone] at hf
    cases hf
  · rcases (accounts_of_evaluate hcheck hr).nothingElse f hf with ⟨hsubject, _⟩ |
        ⟨a, ha, hsubject, hphase⟩ | ⟨_, a, b, _, hsubject, _⟩
    · exact hnone f hf hsubject
    · obtain ⟨name, hname, rfl⟩ := List.mem_map.mp ha
      have hmem := List.ne_nil_of_mem (mem_select.mpr ⟨hf, rfl, hsubject⟩)
      exact hmem ((hmirrors name hname).about_eq_nil hnone hphase)
    · exact hpairs f hf _ _ hsubject

end Reference

/-- Runs of reference adapters under an accepted configuration return a report if there are threads for
all their names, or no vectors to call them for. -/
theorem exists_report_reference_iff {c : Config} {given : List String}
    {answers : Nat → TestVector → Adapter → Answers} {corpus : Corpus}
    (hcheck : c.check given = .ok ()) :
    (∃ report, runAnswered c (given.map .reference) answers corpus = .returned (.ok report)) ↔
      corpus.vectors = [] ∨ ∀ name ∈ given, (Adapter.reference name).Callable := by
  have hstart : ∀ a ∈ given.map Adapter.reference, a.start = .started :=
    List.forall_mem_map.mpr fun _ _ => rfl
  rw [exists_report_iff, names_reference, and_iff_right hcheck, and_iff_right hstart,
    List.forall_mem_map]

/-- A run of reference adapters that answer in time, in any number and under any accepted
configuration, finds about each what it finds about the canonical codec, and nothing between any
two. A vector passes exactly if the canonical codec alone agrees with it. The run returns a report
unless there is a vector and a name that threads cannot have. -/
theorem reference_mirrors_oracle (c : Config) (given : List String)
    (answers : Nat → TestVector → Adapter → Answers) (corpus : Corpus)
    (hvalid : ∀ v ∈ corpus.vectors, v.shape.validate = .ok ()) (hcheck : c.check given = .ok ())
    (hends : ∀ (index : Nat), ∀ v ∈ corpus.vectors, ∀ name ∈ given,
      (answers index v (.reference name)).EndAs c.timeout ((Adapter.reference name).answers v)) :
    ((∃ report, runAnswered c (given.map .reference) answers corpus = .returned (.ok report)) ↔
      corpus.vectors = [] ∨ ∀ name ∈ given, (Adapter.reference name).Callable) ∧
    ∀ report, runAnswered c (given.map .reference) answers corpus = .returned (.ok report) →
      ∀ (index : Nat) (v : TestVector), corpus.vectors[index]? = some v →
        ∃ result : VectorResult, report.results[index]? = some result ∧
          (∀ name ∈ given, result.Mirrors c v name) ∧
          (∀ f ∈ result.findings, ∀ first second, f.subject ≠ .pair first second) ∧
          (result.passed = true ↔ ∀ f ∈ result.findings, f.subject ≠ .oracle) := by
  refine ⟨exists_report_reference_iff hcheck, fun report hrun index v hv => ?_⟩
  obtain ⟨result, hresult, hr⟩ := result_of_vector (results_of_runAnswered hrun).2 hv
  have hmem := List.mem_of_getElem? hv
  have hshape := hvalid v hmem
  have hend := hends index v hmem
  exact ⟨result, hresult, fun name hname => mirrors_of_evaluate hr hcheck hshape hend hname,
    fun f hf => subject_ne_pair hr hcheck hshape hend hf,
    passed_iff_of_reference hr hcheck hshape hend⟩

/-- A byte is left over: both reference adapters are found wrong as the canonical codec is. -/
theorem reference_mirrors_oracle_trailing :
    let c := { Config.default with mode := .parity, roundtrip := true }
    let v := { Samples.vectorOfU16 "seven" 7 with bytes := [7, 0, 9] }
    v.shape.validate = .ok () ∧ c.check ["one", "two"] = .ok () ∧
      ∃ (report : Report) (result : VectorResult),
        run c (["one", "two"].map .reference) ⟨"", .unset, [], [v]⟩ = .returned (.ok report) ∧
        report.results[0]? = some result ∧ result.Mirrors c v "one" ∧ result.Mirrors c v "two" ∧
        (∀ f ∈ result.findings, ∀ first second, f.subject ≠ .pair first second) ∧
        (result.passed = true ↔ ∀ f ∈ result.findings, f.subject ≠ .oracle) := by
  intro c v
  have hvalid : v.shape.validate = .ok () := by decide
  have hcheck : c.check ["one", "two"] = .ok () := by decide
  obtain ⟨hreturns, hreports⟩ := reference_mirrors_oracle c ["one", "two"]
    (fun _ v a => a.answers v) ⟨"", .unset, [], [v]⟩ (List.forall_mem_singleton.mpr hvalid) hcheck
    (fun _ v _ name _ => Answers.endAs_reference c.timeout name v)
  obtain ⟨report, hrun⟩ := hreturns.mpr (Or.inr (by decide))
  obtain ⟨result, hresult, hmirrors, hpairs, hpassed⟩ := hreports report hrun 0 v rfl
  exact ⟨hvalid, hcheck, report, result, hrun, hresult, hmirrors "one" (by simp),
    hmirrors "two" (by simp), hpairs, hpassed⟩

end Parity

end WireParity
