import WireParity.Proofs.Outcome
import WireParity.Proofs.Parity.Findings
import WireParity.Proofs.Shape.WellFormed

/-!
# Runs and their reports

A run comes to a report in which each vector has its result in its place, or to none. There is none
under a configuration that is not accepted, with an adapter that does not start, and where a vector
would have to go to an adapter that no thread can be named for: `exists_report_iff` says that these are
all the ways. Later theorems speak of the results of a report, which are those of `evaluateFrom`. What a
result holds about each subject is what one check of the vector found, as the names of adapters are
distinct.

The calls of a run are not tied to functions. An adapter that is asked twice may answer twice
differently, so the three calls about a vector have answers of their own.
-/

namespace WireParity

namespace Config

/-- No name is repeated exactly if all are distinct and none was seen before. -/
theorem repeatedName?_eq_none_iff {seen names : List String} :
    repeatedName? seen names = none ↔ Shape.Fresh seen names := by
  induction names generalizing seen with
  | nil => simp [repeatedName?, Shape.Fresh]
  | cons name rest ih =>
    rw [repeatedName?, Shape.fresh_cons]
    by_cases hseen : name ∈ seen
    · simp [hseen]
    · simp [hseen, ih]

/-- A configuration is accepted for adapters of distinct names, two or more to compare them with
each other, with time for calls and with workers. -/
theorem check_eq_ok_iff {c : Config} {adapters : List String} :
    c.check adapters = .ok () ↔
      adapters ≠ [] ∧ (c.mode = .parity → 2 ≤ adapters.length) ∧ adapters.Nodup ∧
        c.timeout.ns ≠ 0 ∧ c.jobs ≠ some 0 := by
  rw [check, ← Shape.fresh_nil, ← repeatedName?_eq_none_iff]
  cases adapters with
  | nil => simp
  | cons first rest =>
    rw [List.isEmpty_cons, if_neg Bool.false_ne_true]
    by_cases hfew : c.mode = .parity ∧ (first :: rest).length < 2
    · rw [if_pos hfew]
      simp only [reduceCtorEq, false_iff, not_and]
      intro _ henough
      exact absurd (henough hfew.1) (Nat.not_le.mpr hfew.2)
    · have henough : c.mode = .parity → 2 ≤ (first :: rest).length := fun hmode =>
        Nat.le_of_not_lt fun hless => hfew ⟨hmode, hless⟩
      rw [if_neg hfew]
      cases hrepeated : repeatedName? [] (first :: rest) with
      | some name => simp
      | none =>
        by_cases htime : c.timeout.ns = 0
        · simp [htime]
        · by_cases hjobs : c.jobs = some 0
          · simp [htime, hjobs]
          · simpa [htime, hjobs] using henough

end Config

/-- There are threads for calls to an adapter: its name can be part of theirs. -/
def Adapter.Callable (a : Adapter) : Prop := '\x00' ∉ a.name.toList

instance (a : Adapter) : Decidable a.Callable :=
  inferInstanceAs (Decidable ('\x00' ∉ a.name.toList))

/-- Threads are started for adapters that can be called. For others, the panic tells of the name. -/
theorem startThread_threadName (a : Adapter) :
    startThread (threadName a.name) =
      if a.Callable then .ok () else .error (.threadName (threadName a.name)) := by
  have hname : '\x00' ∈ (threadName a.name).toList ↔ ¬a.Callable := by
    rw [threadName, String.toList_append, List.mem_append, Adapter.Callable, not_not]
    exact or_iff_right (by decide)
  rw [startThread]
  simp only [hname, ite_not]

namespace Exercise

variable {c : Config} {a : Adapter} {answers : Answers}

/-- There are verdicts on an adapter that can be called. -/
theorem perform_eq_ok_iff {e : Exercise} :
    perform c a.name answers = .ok e ↔ a.Callable ∧ ofAnswers c answers = e := by
  rw [perform, startThread_threadName]
  by_cases ha : a.Callable <;> simp [ha, Except.map]

/-- Calling an adapter that cannot be called is a panic about its name. -/
theorem perform_eq_error_iff {panic : Panic} :
    perform c a.name answers = .error panic ↔
      ¬a.Callable ∧ .threadName (threadName a.name) = panic := by
  rw [perform, startThread_threadName]
  by_cases ha : a.Callable <;> simp [ha, Except.map]

end Exercise

/-- The first adapter that cannot be called, if there is one. -/
def uncallable? (adapters : List Adapter) : Option Adapter :=
  adapters.find? fun a => ¬a.Callable

/-- There is none exactly if all can be called. -/
theorem uncallable?_eq_none_iff {adapters : List Adapter} :
    uncallable? adapters = none ↔ ∀ a ∈ adapters, a.Callable := by
  simp [uncallable?]

namespace TestVector

variable {c : Config} {adapters : List Adapter} {answers : Adapter → Answers} {panic : Panic}

/-- Adapters are called one after another. -/
theorem exercises_cons {a : Adapter} {rest : List Adapter} :
    exercises c (a :: rest) answers = do
      let e ← Exercise.perform c a.name (answers a)
      let others ← exercises c rest answers
      return (a.name, e) :: others := by
  rw [exercises, List.mapM_cons]
  cases Exercise.perform c a.name (answers a) <;> rfl

/-- There are verdicts on all adapters if all can be called. -/
theorem exercises_eq_ok_iff {done : List (String × Exercise)} :
    exercises c adapters answers = .ok done ↔
      (∀ a ∈ adapters, a.Callable) ∧
        adapters.map (fun a => (a.name, Exercise.ofAnswers c (answers a))) = done := by
  induction adapters generalizing done with
  | nil => simp [exercises, pure, Except.pure]
  | cons a rest ih =>
    rw [exercises_cons, bind_eq_ok_iff, List.forall_mem_cons, List.map_cons]
    simp only [Exercise.perform_eq_ok_iff, bind_eq_ok_iff, ih]
    refine ⟨fun hdone => ?_, fun hdone => ?_⟩
    · obtain ⟨_, ⟨ha, rfl⟩, _, ⟨hrest, rfl⟩, heq⟩ := hdone
      exact ⟨⟨ha, hrest⟩, Except.ok.inj heq⟩
    · obtain ⟨⟨ha, hrest⟩, rfl⟩ := hdone
      exact ⟨_, ⟨ha, rfl⟩, _, ⟨hrest, rfl⟩, rfl⟩

/-- Otherwise the first that cannot be called takes its caller down. -/
theorem exercises_eq_error_iff :
    exercises c adapters answers = .error panic ↔
      ∃ a, uncallable? adapters = some a ∧ .threadName (threadName a.name) = panic := by
  induction adapters with
  | nil => simp [exercises, uncallable?, pure, Except.pure]
  | cons a rest ih =>
    rw [exercises_cons, bind_eq_error_iff, uncallable?, List.find?_cons]
    simp only [Exercise.perform_eq_error_iff, Exercise.perform_eq_ok_iff, bind_eq_error_iff, ih]
    by_cases ha : a.Callable
    · simp [ha, uncallable?, pure, Except.pure]
    · simp [ha]

/-- A vector has a result if all adapters can be called. -/
theorem evaluate_eq_ok_iff {v : TestVector} {index : Nat} {r : VectorResult} :
    v.evaluate c adapters answers index = .ok r ↔
      (∀ a ∈ adapters, a.Callable) ∧
        { index
          caseName := v.caseName
          typeName := v.typeName
          findings := v.findingsOf c
            (adapters.map fun a => (a.name, Exercise.ofAnswers c (answers a)))
          elapsed := 0 } = r := by
  rw [evaluate, map_eq_ok_iff]
  simp only [exercises_eq_ok_iff]
  refine ⟨fun hr => ?_, fun hr => ?_⟩
  · obtain ⟨_, ⟨hcallable, rfl⟩, hr⟩ := hr
    exact ⟨hcallable, hr⟩
  · obtain ⟨hcallable, hr⟩ := hr
    exact ⟨_, ⟨hcallable, rfl⟩, hr⟩

/-- Otherwise there is a panic, which is the same for all vectors. -/
theorem evaluate_eq_error_iff {v : TestVector} {index : Nat} :
    v.evaluate c adapters answers index = .error panic ↔
      ∃ a, uncallable? adapters = some a ∧ .threadName (threadName a.name) = panic := by
  rw [evaluate, map_eq_error_iff, exercises_eq_error_iff]

end TestVector

namespace Parity

section Evaluating

variable {c : Config} {adapters : List Adapter}
  {answers : Nat → TestVector → Adapter → Answers} {index : Nat} {vectors : List TestVector}
  {results : List VectorResult}

/-- The results for some vectors are one for the first and those for the others. -/
theorem evaluateFrom_cons_eq_ok {v : TestVector} {rest : List TestVector} :
    evaluateFrom c adapters answers index (v :: rest) = .ok results ↔
      ∃ r others, v.evaluate c adapters (answers index v) index = .ok r ∧
        evaluateFrom c adapters answers (index + 1) rest = .ok others ∧ r :: others = results := by
  rw [evaluateFrom, bind_eq_ok_iff]
  refine exists_congr fun r => ?_
  rw [bind_eq_ok_iff, exists_and_left]
  simp only [pure, Except.pure, Except.ok.injEq]

/-- There are results for vectors from a position on if each vector has one. -/
theorem evaluateFrom_eq_ok_iff :
    evaluateFrom c adapters answers index vectors = .ok results ↔
      vectors.mapIdx (fun i v => v.evaluate c adapters (answers (index + i) v) (index + i)) =
        results.map .ok := by
  induction vectors generalizing index results with
  | nil => simp [evaluateFrom, eq_comm]
  | cons v rest ih =>
    rw [evaluateFrom_cons_eq_ok, List.mapIdx_cons]
    simp only [ih, Nat.add_zero, Nat.add_assoc, Nat.add_comm 1]
    refine ⟨fun hresults => ?_, fun hresults => ?_⟩
    · obtain ⟨r, others, hr, hothers, rfl⟩ := hresults
      rw [List.map_cons, hr, hothers]
    · obtain ⟨r, others, rfl, hr, hothers⟩ := List.map_eq_cons_iff.mp hresults.symm
      exact ⟨r, others, hr.symm, hothers.symm, rfl⟩

/-- Otherwise there is a panic, which comes with the first vector. -/
theorem evaluateFrom_eq_error_iff {panic : Panic} :
    evaluateFrom c adapters answers index vectors = .error panic ↔
      vectors ≠ [] ∧ ∃ a, uncallable? adapters = some a ∧
        .threadName (threadName a.name) = panic := by
  induction vectors generalizing index with
  | nil => simp [evaluateFrom]
  | cons v rest ih =>
    rw [evaluateFrom, bind_eq_error_iff]
    simp only [bind_eq_error_iff, TestVector.evaluate_eq_error_iff, ih]
    constructor
    · rintro (hpanic | ⟨r, hr, ⟨_, hpanic⟩ | ⟨_, _, heq⟩⟩)
      · exact ⟨List.cons_ne_nil v rest, hpanic⟩
      · exact ⟨List.cons_ne_nil v rest, hpanic⟩
      · cases heq
    · exact fun hpanic => Or.inl hpanic.2

/-- So there are results if there are no vectors, or all adapters can be called. -/
theorem exists_results_iff :
    (∃ results, evaluateFrom c adapters answers index vectors = .ok results) ↔
      vectors = [] ∨ ∀ a ∈ adapters, a.Callable := by
  rw [← uncallable?_eq_none_iff]
  constructor
  · rintro ⟨results, hresults⟩
    by_contra hpanic
    rw [not_or] at hpanic
    obtain ⟨a, ha⟩ := Option.ne_none_iff_exists'.mp hpanic.2
    have herror : evaluateFrom c adapters answers index vectors =
        .error (.threadName (threadName a.name)) :=
      evaluateFrom_eq_error_iff.mpr ⟨hpanic.1, a, ha, rfl⟩
    cases hresults.symm.trans herror
  · intro hnone
    cases houtcome : evaluateFrom c adapters answers index vectors with
    | ok results => exact ⟨results, rfl⟩
    | error panic =>
      obtain ⟨hsome, a, ha, -⟩ := evaluateFrom_eq_error_iff.mp houtcome
      rw [ha] at hnone
      exact absurd (hnone.resolve_left hsome) (Option.some_ne_none a)

/-- What stands at a position of the results is the result for what stands there in the corpus. -/
theorem result_of_vector (hresults : evaluateFrom c adapters answers 0 vectors = .ok results)
    {v : TestVector} (hv : vectors[index]? = some v) :
    ∃ r, results[index]? = some r ∧ v.evaluate c adapters (answers index v) index = .ok r := by
  have hget := congrArg (fun outcomes => outcomes[index]?) (evaluateFrom_eq_ok_iff.mp hresults)
  simp only [Nat.zero_add, List.getElem?_mapIdx, hv, Option.map_some, List.getElem?_map] at hget
  obtain ⟨r, hr, heq⟩ := Option.map_eq_some_iff.mp hget.symm
  exact ⟨r, hr, heq.symm⟩

/-- Every result is one for a vector, at the vector's position. -/
theorem vector_of_result (hresults : evaluateFrom c adapters answers 0 vectors = .ok results)
    {r : VectorResult} (hr : r ∈ results) :
    ∃ (index : Nat) (v : TestVector), vectors[index]? = some v ∧
      v.evaluate c adapters (answers index v) index = .ok r := by
  have hmem : .ok r ∈ results.map (Except.ok (ε := Panic)) := List.mem_map_of_mem hr
  rw [← evaluateFrom_eq_ok_iff.mp hresults, List.mem_mapIdx] at hmem
  obtain ⟨index, hlt, heq⟩ := hmem
  rw [Nat.zero_add] at heq
  exact ⟨index, vectors[index], List.getElem?_eq_getElem hlt, heq⟩

/-- There are as many results as vectors. -/
theorem length_of_results (hresults : evaluateFrom c adapters answers index vectors = .ok results) :
    results.length = vectors.length := by
  have hlength := congrArg List.length (evaluateFrom_eq_ok_iff.mp hresults)
  rw [List.length_mapIdx, List.length_map] at hlength
  exact hlength.symm

/-- Results are numbered by position. -/
theorem indices_of_results (hresults : evaluateFrom c adapters answers index vectors = .ok results) :
    results.map VectorResult.index = List.range' index vectors.length := by
  induction vectors generalizing index results with
  | nil =>
    cases hresults
    rfl
  | cons v rest ih =>
    obtain ⟨r, others, hr, hothers, rfl⟩ := evaluateFrom_cons_eq_ok.mp hresults
    rw [List.map_cons, ih hothers, List.length_cons, List.range'_succ,
      ← (TestVector.evaluate_eq_ok_iff.mp hr).2]

/-- Results have the findings about each vector, from the verdicts on all adapters. -/
theorem findings_of_results (hresults : evaluateFrom c adapters answers index vectors = .ok results) :
    results.map VectorResult.findings = vectors.mapIdx fun i v => v.findingsOf c
      (adapters.map fun a => (a.name, Exercise.ofAnswers c (answers (index + i) v a))) := by
  induction vectors generalizing index results with
  | nil =>
    cases hresults
    rfl
  | cons v rest ih =>
    obtain ⟨r, others, hr, hothers, rfl⟩ := evaluateFrom_cons_eq_ok.mp hresults
    rw [List.map_cons, ih hothers, List.mapIdx_cons, ← (TestVector.evaluate_eq_ok_iff.mp hr).2]
    simp only [Nat.add_zero, Nat.add_assoc, Nat.add_comm 1]

/-- Results that are completed in the order of the corpus stay in it. -/
theorem collect_results (hresults : evaluateFrom c adapters answers index vectors = .ok results) :
    collect results = results := by
  have hordered : (results.map VectorResult.index).Pairwise (· < ·) := by
    rw [indices_of_results hresults]
    exact List.pairwise_lt_range'
  refine List.mergeSort_of_pairwise ((List.pairwise_map.mp hordered).imp fun hlt => ?_)
  exact decide_eq_true (Nat.le_of_lt hlt)

end Evaluating

/-- An adapter does not end a run exactly if it starts. -/
theorem ending?_eq_none_iff {start : Start} {name : String} :
    start.ending? name = none ↔ start = .started := by
  cases start <;> simp [Start.ending?]

/-- Adapters that start are acquired and counted before those that come after them. -/
theorem Lease.acquire_append {front : List Adapter} (hstart : ∀ a ∈ front, a.start = .started)
    (lease : Lease) (rest : List Adapter) :
    lease.acquire (front ++ rest) =
      let others := Lease.acquire { lease with acquired := lease.acquired + front.length } rest
      (front.map (fun a => .acquired a.name) ++ others.1, others.2) := by
  induction front generalizing lease with
  | nil => rfl
  | cons a front ih =>
    rw [List.forall_mem_cons] at hstart
    rw [List.cons_append, acquire, ending?_eq_none_iff.mpr hstart.1]
    simp only [ih hstart.2, List.length_cons, Nat.add_assoc, Nat.add_comm 1]
    rfl

/-- Adapters that start are all acquired. -/
theorem Lease.acquire_eq {adapters : List Adapter} (hstart : ∀ a ∈ adapters, a.start = .started) :
    Lease.acquire ⟨adapters, 0⟩ adapters =
      (adapters.map (fun a => .acquired a.name), .ok ⟨adapters, adapters.length⟩) := by
  have hall := acquire_append hstart ⟨adapters, 0⟩ []
  simpa only [List.append_nil, Nat.zero_add, acquire] using hall

/-- Adapters that are all acquired start. Where one does not, there is no report. -/
theorem Lease.acquire_cases (lease : Lease) (adapters : List Adapter) :
    (∀ a ∈ adapters, a.start = .started) ∨
      ∃ ending, (lease.acquire adapters).2 = .error ending ∧
        ∀ report, ending ≠ .returned (.ok report) := by
  induction adapters generalizing lease with
  | nil => exact Or.inl (List.forall_mem_nil _)
  | cons a rest ih =>
    rw [acquire]
    cases hending : a.start.ending? a.name with
    | none =>
      rw [List.forall_mem_cons, ← @ending?_eq_none_iff a.start a.name, and_iff_right hending]
      exact ih _
    | some ending =>
      refine Or.inr ⟨ending, rfl, fun report hreport => ?_⟩
      rw [hreport] at hending
      cases hstart : a.start <;> simp [hstart, Start.ending?] at hending

section Reporting

variable {c : Config} {adapters : List Adapter} {answers : Nat → TestVector → Adapter → Answers}
  {corpus : Corpus}

/-- An accepted session of adapters that start comes to what the work in it comes to. -/
theorem session_snd_of_starts (work : WorkEnd) (hcheck : c.check (names adapters) = .ok ())
    (hstart : ∀ a ∈ adapters, a.start = .started) :
    (session c adapters work).2 = work.runEnd c adapters := by
  rw [session, hcheck, Lease.acquire_eq hstart]

variable (c adapters) in
/-- What comes of a session is what comes of its work if the configuration is accepted and the adapters
start. Otherwise there is no report, whatever the work. -/
theorem session_snd_cases :
    (c.check (names adapters) = .ok () ∧ (∀ a ∈ adapters, a.start = .started) ∧
        ∀ work, (session c adapters work).2 = work.runEnd c adapters) ∨
      ∃ ending, (∀ report, ending ≠ .returned (.ok report)) ∧
        ∀ work, (session c adapters work).2 = ending := by
  cases hcheck : c.check (names adapters) with
  | error fault =>
    refine Or.inr ⟨.returned (.error (.config fault)), by simp, fun work => ?_⟩
    rw [session, hcheck]
  | ok done =>
    obtain hstart | ⟨ending, hending, hnone⟩ := Lease.acquire_cases ⟨adapters, 0⟩ adapters
    · exact Or.inl ⟨rfl, hstart, fun work => session_snd_of_starts work hcheck hstart⟩
    · refine Or.inr ⟨ending, hnone, fun work => ?_⟩
      simp only [session, hcheck, hending]

/-- A session has a report exactly if the configuration is accepted, the adapters start and the work
in it is completed. -/
theorem session_eq_report_iff {work : WorkEnd} {report : Report} :
    (session c adapters work).2 = .returned (.ok report) ↔
      c.check (names adapters) = .ok () ∧ (∀ a ∈ adapters, a.start = .started) ∧
        ∃ completed, work = .completed completed ∧ Parity.report c adapters completed = report := by
  constructor
  · intro hsession
    obtain ⟨hcheck, hstart, hwork⟩ | ⟨ending, hnone, hending⟩ := session_snd_cases c adapters
    · rw [hwork] at hsession
      cases work with
      | completed completed =>
        cases hsession
        exact ⟨hcheck, hstart, completed, rfl, rfl⟩
      | refused fault => cases hsession
      | panicked done panic => cases hsession
    · exact absurd ((hending work).symm.trans hsession) (hnone report)
  · rintro ⟨hcheck, hstart, completed, rfl, rfl⟩
    exact session_snd_of_starts _ hcheck hstart

/-- The report of a run has the results of its vectors. -/
theorem runAnswered_eq_report_iff {report : Report} :
    runAnswered c adapters answers corpus = .returned (.ok report) ↔
      c.check (names adapters) = .ok () ∧ (∀ a ∈ adapters, a.start = .started) ∧
        ∃ results, evaluateFrom c adapters answers 0 corpus.vectors = .ok results ∧
          ⟨c.mode, names adapters, results, 0⟩ = report := by
  rw [runAnswered, traceAnswered, session_eq_report_iff, work]
  refine and_congr_right fun _ => and_congr_right fun _ => ?_
  cases hresults : evaluateFrom c adapters answers 0 corpus.vectors with
  | error panic => simp
  | ok results => simp [Parity.report, collect_results hresults]

/-- A run has a report only under an accepted configuration, and the report has the results for the
vectors in their places. -/
theorem results_of_runAnswered {report : Report}
    (hrun : runAnswered c adapters answers corpus = .returned (.ok report)) :
    c.check (names adapters) = .ok () ∧
      evaluateFrom c adapters answers 0 corpus.vectors = .ok report.results := by
  obtain ⟨hcheck, -, results, hresults, rfl⟩ := runAnswered_eq_report_iff.mp hrun
  exact ⟨hcheck, hresults⟩

variable (c adapters answers corpus) in
/-- A run has a report exactly if the configuration is accepted, the adapters start, and they can be
called where there is a vector to call them for. -/
theorem exists_report_iff :
    (∃ report, runAnswered c adapters answers corpus = .returned (.ok report)) ↔
      c.check (names adapters) = .ok () ∧ (∀ a ∈ adapters, a.start = .started) ∧
        (corpus.vectors = [] ∨ ∀ a ∈ adapters, a.Callable) := by
  rw [← exists_results_iff]
  simp only [runAnswered_eq_report_iff]
  constructor
  · rintro ⟨_, hcheck, hstart, results, hresults, -⟩
    exact ⟨hcheck, hstart, results, hresults⟩
  · rintro ⟨hcheck, hstart, results, hresults⟩
    exact ⟨_, hcheck, hstart, results, hresults, rfl⟩

/-- Where an adapter cannot be called and there is a vector to call it for, the run is taken down. -/
theorem runAnswered_eq_panicked {a : Adapter} (hcheck : c.check (names adapters) = .ok ())
    (hstart : ∀ a ∈ adapters, a.start = .started) (hvectors : corpus.vectors ≠ [])
    (ha : uncallable? adapters = some a) :
    runAnswered c adapters answers corpus = .panicked (.threadName (threadName a.name)) := by
  have hpanic : evaluateFrom c adapters answers 0 corpus.vectors =
      .error (.threadName (threadName a.name)) :=
    evaluateFrom_eq_error_iff.mpr ⟨hvectors, a, ha, rfl⟩
  rw [runAnswered, traceAnswered, session_snd_of_starts _ hcheck hstart, work, hpanic, WorkEnd.runEnd]

/-- A report is a success exactly if every vector passes. -/
theorem success_iff {report : Report}
    (hresults : evaluateFrom c adapters answers 0 corpus.vectors = .ok report.results) :
    report.success = true ↔ ∀ (index : Nat) (v : TestVector), corpus.vectors[index]? = some v →
      ∀ r, v.evaluate c adapters (answers index v) index = .ok r → r.passed = true := by
  rw [Report.success, List.all_eq_true]
  refine ⟨fun hall index v hv r hr => ?_, fun hall r hr => ?_⟩
  · obtain ⟨other, hother, hevaluate⟩ := result_of_vector hresults hv
    cases hr.symm.trans hevaluate
    exact hall r (List.mem_of_getElem? hother)
  · obtain ⟨index, v, hv, hevaluate⟩ := vector_of_result hresults hr
    exact hall index v hv r hevaluate

end Reporting

end Parity

namespace TestVector

variable {c : Config} {adapters : List Adapter} {answers : Adapter → Answers} {index : Nat}
  {v : TestVector} {r : VectorResult}

/-- A result has its vector's names and number, and the findings that come of the verdicts on the
adapters. -/
theorem exists_exercises_of_evaluate (hr : v.evaluate c adapters answers index = .ok r) :
    r.index = index ∧ r.caseName = v.caseName ∧ r.typeName = v.typeName ∧
      ∃ done, exercises c adapters answers = .ok done ∧ r.findings = v.findingsOf c done := by
  obtain ⟨done, hdone, rfl⟩ := map_eq_ok_iff.mp hr
  exact ⟨rfl, rfl, rfl, done, hdone, rfl⟩

/-- The names that verdicts go by are distinct in an accepted run. -/
theorem nodup_exercises {done : List (String × Exercise)}
    (hcheck : c.check (Parity.names adapters) = .ok ())
    (hdone : exercises c adapters answers = .ok done) : (done.map Prod.fst).Nodup := by
  rw [← (exercises_eq_ok_iff.mp hdone).2, List.map_map]
  exact (Config.check_eq_ok_iff.mp hcheck).2.2.1

/-- What a result holds about the canonical codec. -/
theorem about_oracle (hr : v.evaluate c adapters answers index = .ok r) (phase : Phase) :
    r.about phase .oracle =
      match phase with
      | .encode => v.oracleEncode
      | .decode => v.oracleDecode
      | _ => [] := by
  obtain ⟨-, -, -, done, -, hfindings⟩ := exists_exercises_of_evaluate hr
  rw [VectorResult.about, hfindings]
  exact v.select_oracle_findingsOf c phase

/-- What a result holds about an adapter. -/
theorem about_adapter (hr : v.evaluate c adapters answers index = .ok r)
    (hcheck : c.check (Parity.names adapters) = .ok ()) {a : Adapter} (ha : a ∈ adapters)
    (phase : Phase) :
    r.about phase (.adapter a.name) =
      match phase with
      | .encode => Exercise.bytesFindings v .encode a.name ((answers a).encode.settle c.timeout)
      | .decode => Exercise.valueFindings v a.name ((answers a).decode.settle c.timeout)
      | .reencode => Exercise.reencodeFindings v a.name (Exercise.ofAnswers c (answers a))
      | _ => [] := by
  obtain ⟨-, -, -, done, hdone, hfindings⟩ := exists_exercises_of_evaluate hr
  have hentry : (a.name, Exercise.ofAnswers c (answers a)) ∈ done := by
    rw [← (exercises_eq_ok_iff.mp hdone).2]
    exact List.mem_map_of_mem ha
  rw [VectorResult.about, hfindings]
  exact (v.select_adapter_findingsOf c (nodup_exercises hcheck hdone) hentry phase).trans
    (Exercise.select_findings v a.name _ phase)

/-- What a result holds about a pair of adapters. -/
theorem about_pair (hr : v.evaluate c adapters answers index = .ok r)
    (hcheck : c.check (Parity.names adapters) = .ok ()) {a b : Adapter}
    (hpair : [a, b].Sublist adapters) (phase : Phase) :
    r.about phase (.pair a.name b.name) =
      if c.mode = .parity then
        match phase with
        | .crossEncode => Exercise.crossEncodeFindings (a.name, .ofAnswers c (answers a))
            (b.name, .ofAnswers c (answers b))
        | .crossDecode => Exercise.crossDecodeFindings v (a.name, .ofAnswers c (answers a))
            (b.name, .ofAnswers c (answers b))
        | _ => []
      else [] := by
  obtain ⟨-, -, -, done, hdone, hfindings⟩ := exists_exercises_of_evaluate hr
  have hentries : [(a.name, Exercise.ofAnswers c (answers a)),
      (b.name, Exercise.ofAnswers c (answers b))].Sublist done := by
    rw [← (exercises_eq_ok_iff.mp hdone).2]
    exact hpair.map fun x : Adapter => (x.name, Exercise.ofAnswers c (answers x))
  have hselect := v.select_pair_findingsOf c (nodup_exercises hcheck hdone) hentries phase
  rw [Exercise.select_crossFindings] at hselect
  rw [VectorResult.about, hfindings]
  exact hselect

end TestVector

end WireParity
