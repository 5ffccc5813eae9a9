import WireParity.Proofs.Codec.JsonEncodable
import WireParity.Proofs.Parity.Divergence

/-!
# Adapters against each other and against the corpus

In parity mode, adapters are held to the corpus and also to one another. The second comparison looks
at no expected bytes or value, and yet it cannot contradict the first: of two results that are
compared with each other, both or neither agree with what the corpus expects, or else they disagree.
For bytes this is equality. For values it is agreement, which has no direction only among values
that repeat no field name; `Value.Agrees.symm` and `Value.Agrees.trans` carry the argument.

So the comparisons between adapters add nothing to whether a run succeeds.
-/

namespace WireParity

/-- The findings about two adapters in one phase go together with those between them in another. -/
structure VectorResult.Coheres (r : VectorResult) (phase cross : Phase) (a b : Adapter) : Prop where
  /-- If just one of the two disagrees with the corpus, they disagree with each other. -/
  apart : (r.about phase (.adapter a.name) ≠ [] ↔ r.about phase (.adapter b.name) = []) →
    r.about cross (.pair a.name b.name) ≠ []
  /-- If neither does, they do not disagree. -/
  together : r.about phase (.adapter a.name) = [] → r.about phase (.adapter b.name) = [] →
    r.about cross (.pair a.name b.name) = []

/-- Findings go together if what they tell of does. -/
theorem OneWhen.coheres {r : VectorResult} {phase cross : Phase} {a b : Adapter} {p q w : Prop}
    (ha : OneWhen (r.about phase (.adapter a.name)) p)
    (hb : OneWhen (r.about phase (.adapter b.name)) q)
    (hab : OneWhen (r.about cross (.pair a.name b.name)) w)
    (hapart : (p ↔ ¬q) → w) (htogether : ¬p → ¬q → ¬w) : r.Coheres phase cross a b where
  apart hone := by
    rw [ha.ne_nil_iff, hb.eq_nil_iff] at hone
    exact hab.ne_nil_iff.mpr (hapart hone)
  together hnone hnone' :=
    hab.eq_nil_iff.mpr (htogether (ha.eq_nil_iff.mp hnone) (hb.eq_nil_iff.mp hnone'))

namespace Answers

variable {c : Config} {v : TestVector} {x y : Answers}

/-- An adapter that comes to bytes misencodes if these are not the expected ones. -/
theorem misencodes_iff {bytes : Bytes} (hx : x.encode.settle c.timeout = .ok bytes) :
    x.Misencodes c v ↔ bytes ≠ v.expected := by
  rw [Misencodes, hx, ne_eq, Except.ok.injEq]

/-- An adapter that comes to a value misdecodes if the vector's does not agree with it. -/
theorem misdecodes_iff {value : Value} (hx : x.decode.settle c.timeout = .ok value) :
    x.Misdecodes c v ↔ ¬v.value.Agrees value := by
  simp [Misdecodes, hx, Value.agrees_eq_true_iff]

/-- Two adapters that come to bytes encode apart if these differ. -/
theorem encodesApart_iff {a b : Bytes} (hx : x.encode.settle c.timeout = .ok a)
    (hy : y.encode.settle c.timeout = .ok b) : x.EncodesApart c y ↔ a ≠ b := by
  simp [EncodesApart, hx, hy]

/-- Two adapters that come to values decode apart if the first value does not agree with the
second. -/
theorem decodesApart_iff {a b : Value} (hx : x.decode.settle c.timeout = .ok a)
    (hy : y.decode.settle c.timeout = .ok b) : x.DecodesApart c y ↔ ¬a.Agrees b := by
  simp [DecodesApart, hx, hy, Value.agrees_eq_true_iff]

end Answers

namespace VectorResult.Accounts

variable {r : VectorResult} {c : Config} {v : TestVector} {adapters : List Adapter}
  {answers : Adapter → Answers} {a b : Adapter}

/-- What is found about two encodings goes together. -/
theorem coheres_encode (h : r.Accounts c v adapters answers) (hmode : c.mode = .parity)
    (hpair : [a, b].Sublist adapters) {x y : Bytes}
    (hx : (answers a).encode.settle c.timeout = .ok x)
    (hy : (answers b).encode.settle c.timeout = .ok y) :
    r.Coheres .encode .crossEncode a b := by
  have ha := (h.encode a (hpair.subset (by simp))).congr (Answers.misencodes_iff hx)
  have hb := (h.encode b (hpair.subset (by simp))).congr (Answers.misencodes_iff hy)
  have hab := (h.crossEncode a b hpair).congr
    ((and_iff_right hmode).trans (Answers.encodesApart_iff hx hy))
  refine ha.coheres hb hab (fun hone hsame => ?_) fun hx' hy' => ?_
  · rw [hsame] at hone
    exact iff_not_self hone
  · rw [not_not] at hx' hy' ⊢
    exact hx'.trans hy'.symm

/-- What is found about two decoded values goes together if no value repeats a field name. -/
theorem coheres_decode (h : r.Accounts c v adapters answers) (hmode : c.mode = .parity)
    (hpair : [a, b].Sublist adapters) {x y : Value}
    (hx : (answers a).decode.settle c.timeout = .ok x)
    (hy : (answers b).decode.settle c.timeout = .ok y) (hv : v.value.DistinctFields)
    (hxdistinct : x.DistinctFields) (hydistinct : y.DistinctFields) :
    r.Coheres .decode .crossDecode a b := by
  have ha := (h.decode a (hpair.subset (by simp))).congr (Answers.misdecodes_iff hx)
  have hb := (h.decode b (hpair.subset (by simp))).congr (Answers.misdecodes_iff hy)
  have hab := (h.crossDecode a b hpair).congr
    ((and_iff_right hmode).trans (Answers.decodesApart_iff hx hy))
  refine ha.coheres hb hab (fun hone hsame => ?_) fun hx' hy' => ?_
  · -- If they agreed with each other, the vector's value would agree with both or with neither.
    rw [Value.Agrees.congr_right hsame hxdistinct hydistinct] at hone
    exact iff_not_self hone
  · rw [not_not] at hx' hy' ⊢
    exact (hx'.symm hv hxdistinct).trans hy'

end VectorResult.Accounts

namespace Parity

/-- Neither the vector's value nor any that an adapter decodes repeats a field name. -/
def Unambiguous (c : Config) (v : TestVector) (adapters : List Adapter)
    (answers : Adapter → Answers) : Prop :=
  v.value.DistinctFields ∧ ∀ a ∈ adapters, ∀ value,
    (answers a).decode.settle c.timeout = .ok value → value.DistinctFields

/-- Comparing adapters with each other makes nothing diverge that does not diverge from the corpus,
if no value repeats a field name. -/
theorem diverges_parity_iff {c : Config} {v : TestVector} {adapters : List Adapter}
    {answers : Adapter → Answers} (hunambiguous : Unambiguous c v adapters answers) :
    Diverges { c with mode := .parity } v adapters answers ↔
      Diverges { c with mode := .validate } v adapters answers := by
  obtain ⟨hv, hdecoded⟩ := hunambiguous
  refine ⟨fun hdiverges => ?_, fun hdiverges => ?_⟩
  · cases hdiverges with
    | oracleEncode hwrong => exact .oracleEncode hwrong
    | oracleDecode hwrong => exact .oracleDecode hwrong
    | oracleRest hwrong => exact .oracleRest hwrong
    | encode ha hwrong => exact .encode ha hwrong
    | decode ha hwrong => exact .decode ha hwrong
    | reencode ha hwrong => exact .reencode ha hwrong
    | @crossEncode a b _ hpair hwrong =>
      obtain ⟨x, y, hx, hy, hne⟩ := hwrong
      by_cases hexpected : x = v.expected
      · refine .encode (hpair.subset (by simp)) ((Answers.misencodes_iff hy).mpr fun hsame => ?_)
        exact hne (hexpected.trans hsame.symm)
      · exact .encode (hpair.subset (by simp)) ((Answers.misencodes_iff hx).mpr hexpected)
    | @crossDecode a b _ hpair hwrong =>
      obtain ⟨x, y, hx, hy, hapart⟩ := hwrong
      have ha : a ∈ adapters := hpair.subset (by simp)
      by_cases hagrees : v.value.Agrees x
      · refine .decode (hpair.subset (by simp)) ((Answers.misdecodes_iff hy).mpr fun hsame => ?_)
        rw [Value.agrees_eq_true_iff] at hapart
        exact hapart ((hagrees.symm hv (hdecoded a ha x hx)).trans hsame)
      · exact .decode ha ((Answers.misdecodes_iff hx).mpr hagrees)
  · cases hdiverges with
    | oracleEncode hwrong => exact .oracleEncode hwrong
    | oracleDecode hwrong => exact .oracleDecode hwrong
    | oracleRest hwrong => exact .oracleRest hwrong
    | encode ha hwrong => exact .encode ha hwrong
    | decode ha hwrong => exact .decode ha hwrong
    | reencode ha hwrong => exact .reencode ha hwrong
    | crossEncode hmode => cases hmode
    | crossDecode hmode => cases hmode

/-- What is accepted in parity mode is accepted in the other mode too. -/
theorem check_validate {c : Config} {names : List String}
    (hcheck : { c with mode := .parity }.check names = .ok ()) :
    { c with mode := .validate }.check names = .ok () := by
  obtain ⟨hsome, _, hrest⟩ := Config.check_eq_ok_iff.mp hcheck
  exact Config.check_eq_ok_iff.mpr ⟨hsome, fun hmode => (by cases hmode), hrest⟩

/-- In parity mode, whatever adapters answer, the findings in a report between two of them go together
with those about each, as far as both come to results and these repeat no field name. Adapters whose
calls are functions of their input therefore have a report in parity mode exactly if they have one in
the other, and pass in both or in neither. What is read from JSON or decoded in a validated shape repeats
no field name. -/
theorem cross_findings_cohere (c : Config) (adapters : List Adapter) (corpus : Corpus)
    (hcheck : { c with mode := .parity }.check (names adapters) = .ok ()) :
    (∀ (answers : Nat → TestVector → Adapter → Answers) (report : Report),
      runAnswered { c with mode := .parity } adapters answers corpus = .returned (.ok report) →
      ∀ (index : Nat) (v : TestVector), corpus.vectors[index]? = some v →
        ∃ result : VectorResult, report.results[index]? = some result ∧
          ∀ a b, [a, b].Sublist adapters →
            (∀ x y, (answers index v a).encode.settle c.timeout = .ok x →
              (answers index v b).encode.settle c.timeout = .ok y →
              result.Coheres .encode .crossEncode a b) ∧
            (∀ x y, (answers index v a).decode.settle c.timeout = .ok x →
              (answers index v b).decode.settle c.timeout = .ok y →
              v.value.DistinctFields → x.DistinctFields → y.DistinctFields →
              result.Coheres .decode .crossDecode a b)) ∧
    ((∃ report, run { c with mode := .parity } adapters corpus = .returned (.ok report)) ↔
      ∃ report, run { c with mode := .validate } adapters corpus = .returned (.ok report)) ∧
    ((∀ v ∈ corpus.vectors, Unambiguous c v adapters fun a => a.answers v) →
      ∀ parity validate : Report,
        run { c with mode := .parity } adapters corpus = .returned (.ok parity) →
        run { c with mode := .validate } adapters corpus = .returned (.ok validate) →
        (parity.success = true ↔ validate.success = true)) ∧
    ∀ (shape : Shape) (s : Selections) (value : Value), shape.validate = .ok () →
      (∀ json, shape.valueOfJson json s = .ok value → value.DistinctFields) ∧
      ∀ bytes, shape.decode bytes s = .ok value → value.DistinctFields := by
  have hcheck' := check_validate hcheck
  refine ⟨fun answers report hrun index v hv => ?_, ?_,
    fun hunambiguous parity validate hparity hvalidate => ?_, fun shape s value hvalid => ⟨?_, ?_⟩⟩
  · obtain ⟨result, hresult, hr⟩ := result_of_vector (results_of_runAnswered hrun).2 hv
    have haccounts := accounts_of_evaluate hcheck hr
    refine ⟨result, hresult, fun a b hpair => ⟨fun x y hx hy => ?_, fun x y hx hy hv hx' hy' => ?_⟩⟩
    · exact haccounts.coheres_encode rfl hpair hx hy
    · exact haccounts.coheres_decode rfl hpair hx hy hv hx' hy'
  · exact (exists_report_iff _ adapters _ corpus).trans <|
      Iff.trans (by rw [hcheck, hcheck']) (exists_report_iff _ adapters _ corpus).symm
  · obtain ⟨-, hresults⟩ := results_of_runAnswered hparity
    obtain ⟨-, hresults'⟩ := results_of_runAnswered hvalidate
    rw [success_iff_not_diverges hcheck hresults, success_iff_not_diverges hcheck' hresults']
    refine forall_congr' fun index => forall_congr' fun v => forall_congr' fun hv => ?_
    exact not_congr (diverges_parity_iff (hunambiguous v (List.mem_of_getElem? hv)))
  · intro json hread
    exact Shape.distinctFields_of_valueOfJson hvalid hread
  · intro bytes hdecode
    obtain ⟨⟨other, count⟩, hfront, rfl⟩ := map_eq_ok_iff.mp hdecode
    exact Shape.distinctFields_of_decodeFront hvalid hfront

/-- Against the corpus only the second adapter is wrong, so it departs from the first, and the two
modes come to the same. -/
theorem cross_findings_cohere_swapped :
    let v := Samples.vectorOfU16 "seven" 7
    let corpus : Corpus := ⟨"", .unset, [], [v]⟩
    let first := Adapter.reference "first"
    let second := Adapter.swapped "second"
    let parity := { Config.default with mode := .parity }
    let validate := { Config.default with mode := .validate }
    parity.check (names [first, second]) = .ok () ∧
      Unambiguous Config.default v [first, second] (fun a => a.answers v) ∧
      ∃ (report other : Report) (result : VectorResult),
        run parity [first, second] corpus = .returned (.ok report) ∧
        run validate [first, second] corpus = .returned (.ok other) ∧
        (report.success = true ↔ other.success = true) ∧
        report.results[0]? = some result ∧ result.Coheres .encode .crossEncode first second ∧
        result.Coheres .decode .crossDecode first second := by
  intro v corpus first second parity validate
  have hcheck : parity.check (names [first, second]) = .ok () := by decide
  have hencode : (first.answers v).encode.settle (.ofMs 10000) = .ok [7, 0] := by decide
  have hencode' : (second.answers v).encode.settle (.ofMs 10000) = .ok [0, 7] := by decide
  have hdecode : (first.answers v).decode.settle (.ofMs 10000) =
      .ok (.scalar (.ofBits .u16 7)) := by rfl
  have hdecode' : (second.answers v).decode.settle (.ofMs 10000) =
      .ok (.scalar (.ofBits .u16 1792)) := by rfl
  have hunambiguous : Unambiguous Config.default v [first, second] fun a => a.answers v := by
    refine ⟨by decide, List.forall_mem_cons.mpr ⟨fun value hvalue => ?_,
      List.forall_mem_singleton.mpr fun value hvalue => ?_⟩⟩
    · cases hdecode.symm.trans hvalue
      exact .scalar _
    · cases hdecode'.symm.trans hvalue
      exact .scalar _
  obtain ⟨hcohere, hreturns, hmodes, _⟩ :=
    cross_findings_cohere Config.default [first, second] corpus hcheck
  obtain ⟨report, hrun⟩ := (exists_report_iff parity [first, second] (fun _ v a => a.answers v)
    corpus).mpr ⟨hcheck, by decide, Or.inr (by decide)⟩
  obtain ⟨other, hother⟩ := hreturns.mp ⟨report, hrun⟩
  obtain ⟨result, hresult, hpairs⟩ := hcohere _ report hrun 0 v rfl
  obtain ⟨hencodes, hdecodes⟩ := hpairs first second (.refl _)
  have hsame := hmodes (List.forall_mem_singleton.mpr hunambiguous) report other hrun hother
  exact ⟨hcheck, hunambiguous, report, other, result, hrun, hother, hsame, hresult,
    hencodes _ _ hencode hencode', hdecodes _ _ hdecode hdecode' (.scalar _) (.scalar _) (.scalar _)⟩

end Parity

end WireParity
