import WireParity.Proofs.Parity.Isolation
import WireParity.Proofs.Table
import WireParity.Report.Document
import WireParity.Samples

/-!
# Counts of a document and the findings it lists

A document counts findings by class and lists each with a class. For all findings but errors of the
canonical codec the two classes are one. An error of the codec is counted under its kind and listed
as a codec error, with the kind beside it. The counts of a run are therefore those of the listed
classes exactly where the codec took every vector, and those of the listed kinds in any case.
-/

namespace WireParity

namespace WrittenJson

/-- The member of a written object under a key. -/
def member? (key : String) : WrittenJson → Option WrittenJson
  | .object members => Table.find? key members
  | _ => none

/-- The items of the array under a key. -/
def itemsUnder (key : String) (json : WrittenJson) : List WrittenJson :=
  match json.member? key with
  | some (.array items) => items
  | _ => []

/-- The text under a key. -/
def textUnder? (key : String) (json : WrittenJson) : Option String :=
  match json.member? key with
  | some (.string s) => some s
  | _ => none

end WrittenJson

namespace Document

/-- The count that a document stores under a name: zero where it stores none. -/
def storedCount (document : WrittenJson) (name : String) : WrittenJson :=
  ((document.member? "counts").bind (WrittenJson.member? name)).getD (nat 0)

/-- The findings that a document lists, of all results. -/
def listed (document : WrittenJson) : List WrittenJson :=
  (document.itemsUnder "results").flatMap (WrittenJson.itemsUnder "findings")

/-- How many findings of a class a document lists. -/
def listedCount (document : WrittenJson) (name : String) : Nat :=
  (listed document).countP fun finding => finding.textUnder? "class" = some name

/-- The kind of a listed error of the codec, and the class of any other finding. -/
def kindOrClass? (finding : WrittenJson) : Option String :=
  if finding.textUnder? "class" = some "codec" then finding.textUnder? "kind"
  else finding.textUnder? "class"

end Document

namespace Detail

/-- The detail is an error of the canonical codec. -/
def isCodec : Detail → Bool
  | codec _ _ _ => true
  | _ => false

/-- Errors of the codec are listed as such. -/
theorem listedClass_eq_codec_iff (d : Detail) :
    (Document.detail d).1 = "codec" ↔ d.isCodec = true := by
  cases d <;> simp [Document.detail, isCodec]

/-- All else is listed under the class that it is counted under. -/
theorem listedClass_eq_className {d : Detail} (hcodec : d.isCodec = false) :
    (Document.detail d).1 = d.className := by
  cases d with
  | codec kind path message => cases hcodec
  | _ => rfl

/-- The listed kind of an error of the codec is the class that it is counted under. -/
theorem kindOrClass?_finding (f : Finding) :
    Document.kindOrClass? (Document.finding f) = some f.detail.className := by
  obtain ⟨phase, subject, detail⟩ := f
  cases detail <;>
    simp [Document.kindOrClass?, Document.finding, Document.detail, WrittenJson.textUnder?,
      WrittenJson.member?, Table.find?, Document.text, className]

end Detail

namespace Report

variable {counts : Table Nat} {name : String}

/-- Counting one more under a name leaves all other counts. -/
theorem find?_countOne (other : String) :
    (Table.find? name (countOne counts other)).getD 0 =
      (Table.find? name counts).getD 0 + if other = name then 1 else 0 := by
  by_cases hsame : other = name
  · subst hsame
    rw [countOne, Table.find?_insert_self, if_pos rfl, Option.getD_some]
  · rw [countOne, Table.find?_insert_of_ne (Ne.symm hsame), if_neg hsame, Nat.add_zero]

/-- Names are counted as often as they occur. -/
theorem find?_foldl_countOne (names : List String) :
    (Table.find? name (names.foldl countOne counts)).getD 0 =
      (Table.find? name counts).getD 0 + names.count name := by
  induction names generalizing counts with
  | nil => rfl
  | cons other names ih =>
    rw [List.foldl_cons, ih, find?_countOne, List.count_cons]
    by_cases hsame : other = name
    · simp only [hsame, if_true, beq_self_eq_true]
      omega
    · simp [hsame]

variable (report : Report)

/-- The count under a class in a report. -/
theorem getD_counts :
    (Table.find? name report.counts).getD 0 =
      report.findings.countP fun f => f.detail.className = name := by
  rw [counts, find?_foldl_countOne, List.count, List.countP_map, Table.find?, Option.getD_none,
    Nat.zero_add]
  exact List.countP_congr fun f _ => by simp

/-- A document lists all findings of its report. -/
theorem listed_document :
    Document.listed report.document = report.findings.map Document.finding := by
  have hresults : report.document.itemsUnder "results" = report.results.map Document.result := by
    simp [document, WrittenJson.itemsUnder, WrittenJson.member?, Table.find?]
  have hfindings : ∀ r : VectorResult,
      (Document.result r).itemsUnder "findings" = r.findings.map Document.finding := by
    intro r
    simp [Document.result, WrittenJson.itemsUnder, WrittenJson.member?, Table.find?]
  rw [Document.listed, hresults, List.flatMap_map, findings, List.map_flatMap]
  exact List.flatMap_congr fun r _ => hfindings r

/-- A document stores the counts of its report. -/
theorem storedCount_document (name : String) :
    Document.storedCount report.document name =
      Document.nat (report.findings.countP fun f => f.detail.className = name) := by
  have hcounts : report.document.member? "counts" =
      some (.object (report.counts.map fun entry => (entry.1, Document.nat entry.2))) := by
    simp [document, WrittenJson.member?, Table.find?]
  rw [Document.storedCount, hcounts, Option.bind_some, WrittenJson.member?, Table.find?_map,
    ← getD_counts]
  cases Table.find? name report.counts with
  | none => rfl
  | some count => rfl

/-- The class under which a finding is listed. -/
theorem textUnder?_finding (f : Finding) :
    (Document.finding f).textUnder? "class" = some (Document.detail f.detail).1 := by
  simp [Document.finding, WrittenJson.textUnder?, WrittenJson.member?, Table.find?, Document.text]

/-- A document lists as many findings of a class as its report has. -/
theorem listedCount_document (name : String) :
    Document.listedCount report.document name =
      report.findings.countP fun f => (Document.detail f.detail).1 = name := by
  rw [Document.listedCount, listed_document, List.countP_map]
  exact List.countP_congr fun f _ => by simp [textUnder?_finding]

/-- What a document stores under a name is how many listed findings have it as their class, or as
the kind of an error of the codec. -/
theorem storedCount_eq_countP_kindOrClass? (name : String) :
    Document.storedCount report.document name =
      Document.nat ((Document.listed report.document).countP fun finding =>
        Document.kindOrClass? finding = some name) := by
  rw [storedCount_document, listed_document, List.countP_map]
  congr 1
  exact List.countP_congr fun f _ => by simp [Detail.kindOrClass?_finding]

variable {report}

/-- Where nothing is counted as a codec error, the counts are those of the listed classes exactly if
nothing is listed as one. -/
theorem storedCount_eq_listedCount_iff
    (hclasses : ∀ f ∈ report.findings, f.detail.className ≠ "codec") :
    (∀ name, Document.storedCount report.document name =
        Document.nat (Document.listedCount report.document name)) ↔
      ∀ f ∈ report.findings, f.detail.isCodec = false := by
  simp only [storedCount_document, listedCount_document]
  refine ⟨?_, ?_⟩
  · intro hagree f hf
    have hstored : (report.findings.countP fun f => f.detail.className = "codec") = 0 :=
      List.countP_eq_zero.mpr fun f hf => by simpa using hclasses f hf
    have hlisted :
        (report.findings.countP fun f => (Document.detail f.detail).1 = "codec") = 0 := by
      have hcodec := hagree "codec"
      rw [hstored] at hcodec
      simpa [Document.nat] using hcodec.symm
    have hnot := List.countP_eq_zero.mp hlisted f hf
    rw [decide_eq_true_iff, Detail.listedClass_eq_codec_iff] at hnot
    exact Bool.not_eq_true _ ▸ hnot
  · intro hnone name
    congr 1
    exact List.countP_congr fun f hf => by rw [Detail.listedClass_eq_className (hnone f hf)]

end Report

/-- No kind of error is named like the class that errors of the codec are listed under. -/
theorem ErrorKind.name_ne_codec (kind : ErrorKind) : kind.name ≠ "codec" := by
  cases kind <;> decide

/-- What is not an error of the codec is not counted as one. -/
theorem Detail.className_ne_codec {d : Detail} (hcodec : d.isCodec = false) :
    d.className ≠ "codec" := by
  rw [← listedClass_eq_className hcodec, ne_eq, listedClass_eq_codec_iff, hcodec]
  exact Bool.false_ne_true

section Origin

variable {v : TestVector} {f : Finding}

/-- A byte mismatch is no error of the codec. -/
theorem isCodec_byteFindings {phase : Phase} {subject : Subject} {expected actual : Bytes}
    (hf : f ∈ TestVector.byteFindings phase subject expected actual) :
    f.detail.isCodec = false := by
  rw [TestVector.byteFindings, Option.mem_toList, Option.map_eq_some_iff] at hf
  obtain ⟨m, _, rfl⟩ := hf
  rfl

/-- A value mismatch is no error of the codec. -/
theorem isCodec_valueFindings {phase : Phase} {subject : Subject} {expected actual : Value}
    (hf : f ∈ v.valueFindings phase subject expected actual) : f.detail.isCodec = false := by
  rw [TestVector.valueFindings, Option.mem_toList, Option.map_eq_some_iff] at hf
  obtain ⟨m, _, rfl⟩ := hf
  rfl

/-- An adapter's failure is no error of the codec. -/
theorem isCodec_failureFinding (phase : Phase) (name : String) (failure : AdapterFailure) :
    (v.failureFinding phase name failure).detail.isCodec = false := by
  cases failure <;> rfl

/-- A call that had to produce bytes leads to no error of the codec. -/
theorem isCodec_bytesFindings {phase : Phase} {name : String}
    {outcome : Except AdapterFailure Bytes}
    (hf : f ∈ Exercise.bytesFindings v phase name outcome) : f.detail.isCodec = false := by
  cases outcome with
  | ok bytes => exact isCodec_byteFindings hf
  | error failure =>
    cases List.mem_singleton.mp hf
    exact isCodec_failureFinding phase name failure

/-- Nothing that is found about an adapter is an error of the codec. -/
theorem isCodec_findings {name : String} {e : Exercise} (hf : f ∈ e.findings v name) :
    f.detail.isCodec = false := by
  rcases List.mem_append.mp hf with hf | hf
  · rcases List.mem_append.mp hf with hf | hf
    · exact isCodec_bytesFindings hf
    · cases hdecoded : e.decoded with
      | ok value =>
        rw [hdecoded] at hf
        exact isCodec_valueFindings hf
      | error failure =>
        rw [hdecoded] at hf
        cases List.mem_singleton.mp hf
        exact isCodec_failureFinding .decode name failure
  · cases hreencoded : e.reencoded with
    | none =>
      rw [hreencoded] at hf
      cases hf
    | some outcome =>
      rw [hreencoded] at hf
      exact isCodec_bytesFindings hf

/-- Nothing that is found between adapters is an error of the codec. -/
theorem isCodec_allCrossFindings {done : List (String × Exercise)}
    (hf : f ∈ Exercise.allCrossFindings v done) : f.detail.isCodec = false := by
  obtain ⟨first, second, _, hf⟩ := Exercise.exists_pair_of_mem_allCrossFindings v hf
  rcases List.mem_append.mp hf with hf | hf
  · split at hf
    · exact isCodec_byteFindings hf
    · cases hf
  · split at hf
    · exact isCodec_valueFindings hf
    · cases hf

/-- The errors of the codec among its own findings are those that it ends with. -/
theorem mem_oracleFindings_of_isCodec (hf : f ∈ v.oracleFindings)
    (hcodec : f.detail.isCodec = true) :
    ∃ phase e, f = TestVector.codecFinding phase e ∧
      (v.shape.encode v.value v.selections = .error e ∨
        v.shape.decodeFront v.bytes v.selections = .error e) := by
  rcases List.mem_append.mp hf with hf | hf
  · rw [TestVector.oracleEncode] at hf
    cases hencode : v.shape.encode v.value v.selections with
    | ok bytes =>
      rw [hencode] at hf
      rw [isCodec_byteFindings hf] at hcodec
      cases hcodec
    | error e =>
      rw [hencode] at hf
      exact ⟨.encode, e, List.mem_singleton.mp hf, .inl rfl⟩
  · rw [TestVector.oracleDecode] at hf
    cases hdecode : v.shape.decodeFront v.bytes v.selections with
    | ok result =>
      rw [hdecode] at hf
      rcases List.mem_append.mp hf with hf | hf
      · rw [isCodec_valueFindings hf] at hcodec
        cases hcodec
      · split at hf
        · cases List.mem_singleton.mp hf
          cases hcodec
        · cases hf
    | error e =>
      rw [hdecode] at hf
      exact ⟨.decode, e, List.mem_singleton.mp hf, .inr rfl⟩

variable {c : Config} {done : List (String × Exercise)}

/-- The errors of the codec among all findings about a vector are those that it ends with. -/
theorem mem_findingsOf_of_isCodec (hf : f ∈ v.findingsOf c done)
    (hcodec : f.detail.isCodec = true) :
    ∃ phase e, f = TestVector.codecFinding phase e ∧
      (v.shape.encode v.value v.selections = .error e ∨
        v.shape.decodeFront v.bytes v.selections = .error e) := by
  rcases List.mem_append.mp hf with hf | hf
  · rcases List.mem_append.mp hf with hf | hf
    · exact mem_oracleFindings_of_isCodec hf hcodec
    · obtain ⟨entry, _, hf⟩ := List.mem_flatMap.mp hf
      rw [isCodec_findings hf] at hcodec
      cases hcodec
  · by_cases hmode : c.mode = .parity
    · rw [if_pos hmode] at hf
      rw [isCodec_allCrossFindings hf] at hcodec
      cases hcodec
    · rw [if_neg hmode] at hf
      cases hf

/-- An encoding that fails is a finding. -/
theorem codecFinding_mem_of_encode {e : CodecError}
    (hencode : v.shape.encode v.value v.selections = .error e) :
    TestVector.codecFinding .encode e ∈ v.findingsOf c done := by
  have hfound : TestVector.codecFinding .encode e ∈ v.oracleEncode := by
    rw [TestVector.oracleEncode, hencode]
    exact List.mem_cons_self
  exact List.mem_append_left _ (List.mem_append_left _ (List.mem_append_left _ hfound))

/-- A decoding that fails is a finding. -/
theorem codecFinding_mem_of_decode {e : CodecError}
    (hdecode : v.shape.decodeFront v.bytes v.selections = .error e) :
    TestVector.codecFinding .decode e ∈ v.findingsOf c done := by
  have hfound : TestVector.codecFinding .decode e ∈ v.oracleDecode := by
    rw [TestVector.oracleDecode, hdecode]
    exact List.mem_cons_self
  exact List.mem_append_left _ (List.mem_append_left _ (List.mem_append_right _ hfound))

/-- Errors of the codec are found about a vector exactly where the codec does not take it. -/
theorem isCodec_findingsOf_iff :
    (∀ f ∈ v.findingsOf c done, f.detail.isCodec = false) ↔
      (∃ bytes, v.shape.encode v.value v.selections = .ok bytes) ∧
        ∃ result, v.shape.decodeFront v.bytes v.selections = .ok result := by
  refine ⟨?_, ?_⟩
  · intro hnone
    refine ⟨?_, ?_⟩
    · cases hencode : v.shape.encode v.value v.selections with
      | ok bytes => exact ⟨bytes, rfl⟩
      | error e => cases hnone _ (codecFinding_mem_of_encode hencode)
    · cases hdecode : v.shape.decodeFront v.bytes v.selections with
      | ok result => exact ⟨result, rfl⟩
      | error e => cases hnone _ (codecFinding_mem_of_decode hdecode)
  · intro h f hf
    obtain ⟨⟨bytes, hencode⟩, result, hdecode⟩ := h
    by_contra hcodec
    obtain ⟨phase, e, rfl, herror | herror⟩ :=
      mem_findingsOf_of_isCodec hf (Bool.not_eq_false _ ▸ hcodec)
    · cases hencode.symm.trans herror
    · cases hdecode.symm.trans herror

/-- Nothing that is found about a vector is counted as a codec error. -/
theorem className_findingsOf_ne_codec (hf : f ∈ v.findingsOf c done) :
    f.detail.className ≠ "codec" := by
  cases hcodec : f.detail.isCodec with
  | false => exact Detail.className_ne_codec hcodec
  | true =>
    obtain ⟨phase, e, rfl, _⟩ := mem_findingsOf_of_isCodec hf hcodec
    exact e.kind.name_ne_codec

end Origin

namespace Parity

variable {c : Config} {adapters : List Adapter} {answers : Nat → TestVector → Adapter → Answers}
  {corpus : Corpus} {report : Report}

/-- The findings of a report are those about each vector, in order. -/
theorem findings_of_runAnswered
    (hrun : runAnswered c adapters answers corpus = .returned (.ok report)) :
    report.findings = (corpus.vectors.mapIdx fun index v => v.findingsOf c
      (adapters.map fun a => (a.name, Exercise.ofAnswers c (answers index v a)))).flatten := by
  have hfindings := findings_of_results (results_of_runAnswered hrun).2
  simp only [Nat.zero_add] at hfindings
  rw [Report.findings, List.flatMap_def, hfindings]

/-- A finding of a report is one about some vector. -/
theorem mem_findings_iff (hrun : runAnswered c adapters answers corpus = .returned (.ok report))
    {f : Finding} :
    f ∈ report.findings ↔ ∃ (index : Nat) (v : TestVector), corpus.vectors[index]? = some v ∧
      f ∈ v.findingsOf c
        (adapters.map fun a => (a.name, Exercise.ofAnswers c (answers index v a))) := by
  rw [findings_of_runAnswered hrun, List.mem_flatten]
  simp only [List.mem_mapIdx]
  refine ⟨?_, ?_⟩
  · intro h
    obtain ⟨_, ⟨index, hlt, rfl⟩, hf⟩ := h
    exact ⟨index, corpus.vectors[index], List.getElem?_eq_getElem hlt, hf⟩
  · intro h
    obtain ⟨index, v, hv, hf⟩ := h
    obtain ⟨hlt, rfl⟩ := List.getElem?_eq_some_iff.mp hv
    exact ⟨_, ⟨index, hlt, rfl⟩, hf⟩

/-- The counts in the document of a run, whatever its adapters answer, are those of the classes
under which the document lists its findings exactly if the canonical codec encodes and decodes every
vector. -/
theorem storedCount_eq_listedCount_iff_of_run (c : Config) (adapters : List Adapter)
    (answers : Nat → TestVector → Adapter → Answers) (corpus : Corpus) (report : Report)
    (hrun : runAnswered c adapters answers corpus = .returned (.ok report)) :
    (∀ name, Document.storedCount report.document name =
        Document.nat (Document.listedCount report.document name)) ↔
      ∀ v ∈ corpus.vectors, (∃ bytes, v.shape.encode v.value v.selections = .ok bytes) ∧
        ∃ result, v.shape.decodeFront v.bytes v.selections = .ok result := by
  rw [Report.storedCount_eq_listedCount_iff]
  · refine ⟨?_, ?_⟩
    · intro hnone v hv
      obtain ⟨index, hindex⟩ := List.mem_iff_getElem?.mp hv
      exact isCodec_findingsOf_iff.mp fun f hf =>
        hnone f ((mem_findings_iff hrun).mpr ⟨index, v, hindex, hf⟩)
    · intro htaken f hf
      obtain ⟨index, v, hindex, hf⟩ := (mem_findings_iff hrun).mp hf
      exact isCodec_findingsOf_iff.mpr (htaken v (List.mem_of_getElem? hindex)) f hf
  · intro f hf
    obtain ⟨index, v, _, hf⟩ := (mem_findings_iff hrun).mp hf
    exact className_findingsOf_ne_codec hf

/-- A byte too many is counted as it is listed. -/
theorem storedCount_eq_listedCount_iff_of_run_seven :
    let corpus : Corpus :=
      ⟨"", .unset, [], [{ Samples.vectorOfU16 "seven" 7 with bytes := [7, 0, 9] }]⟩
    ∃ report : Report,
      runAnswered .default [.reference "one"] (fun _ v a => a.answers v) corpus =
        .returned (.ok report) ∧
      Document.listedCount report.document "trailing-bytes" = 1 ∧
      ∀ name, Document.storedCount report.document name =
        Document.nat (Document.listedCount report.document name) := by
  intro corpus
  obtain ⟨report, hrun⟩ := (exists_report_iff .default [.reference "one"]
    (fun _ v a => a.answers v) corpus).mpr ⟨by decide, by decide, Or.inr (by decide)⟩
  refine ⟨report, hrun, ?_, ?_⟩
  · rw [Report.listedCount_document, findings_of_runAnswered hrun]
    decide
  · refine (storedCount_eq_listedCount_iff_of_run _ _ _ _ _ hrun).mpr ?_
    exact List.forall_mem_singleton.mpr ⟨⟨_, rfl⟩, _, rfl⟩

/-- A byte too few is counted under the kind of the error, and listed as an error of the codec. -/
theorem storedCount_ne_listedCount_truncated :
    let corpus : Corpus :=
      ⟨"", .unset, [], [{ Samples.vectorOfU16 "seven" 7 with bytes := [7] }]⟩
    ∃ report : Report, run .default [.reference "one"] corpus = .returned (.ok report) ∧
      Document.storedCount report.document "truncated-input" = Document.nat 1 ∧
      Document.listedCount report.document "truncated-input" = 0 ∧
      Document.storedCount report.document "codec" = Document.nat 0 ∧
      Document.listedCount report.document "codec" = 1 := by
  intro corpus
  obtain ⟨report, hrun⟩ := (exists_report_iff .default [.reference "one"]
    (fun _ v a => a.answers v) corpus).mpr ⟨by decide, by decide, Or.inr (by decide)⟩
  refine ⟨report, hrun, ?_⟩
  simp only [Report.storedCount_document, Report.listedCount_document, findings_of_runAnswered hrun]
  exact ⟨congrArg Document.nat (by decide), by decide, congrArg Document.nat (by decide), by decide⟩

end Parity

end WireParity
