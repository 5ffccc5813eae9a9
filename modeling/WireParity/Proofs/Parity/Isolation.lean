import WireParity.Proofs.Parity.Session
import WireParity.Samples

/-!
# What a finding depends on

The findings of a vector stand in one list, to which the canonical codec, all adapters and all pairs
of adapters add. What one of them adds depends on nothing that another does: it is a function of the
vector and of its own calls. Two runs that have a vector and an adapter in common therefore say the
same about them, in the same order, whatever else is in the runs and whether or not adapters are
compared with each other. A run of part of a corpus is that part of the run of the whole.

A panic is the exception. An adapter that no thread can be named for takes the run down with all that
the others have found, so what is said here of findings is said of runs that return.
-/

namespace WireParity

/-- The findings about a subject, in order. -/
def VectorResult.ofSubject (r : VectorResult) (subject : Subject) : List Finding :=
  r.findings.filter fun f => decide (f.subject = subject)

section Keeping

variable {subject : Subject} {findings : List Finding}

/-- Findings that are all about a subject are kept for it. -/
theorem filter_subject_eq_self (h : ∀ f ∈ findings, f.subject = subject) :
    findings.filter (fun f => decide (f.subject = subject)) = findings :=
  List.filter_eq_self.mpr fun f hf => decide_eq_true (h f hf)

/-- Findings of which none is about a subject are not kept for it. -/
theorem filter_subject_eq_nil (h : ∀ f ∈ findings, f.subject ≠ subject) :
    findings.filter (fun f => decide (f.subject = subject)) = [] :=
  List.filter_eq_nil_iff.mpr fun f hf => by simp [h f hf]

end Keeping

namespace TestVector

variable (v : TestVector) (c : Config) {done : List (String × Exercise)}

/-- The comparisons of adapters with each other add nothing about a single one, or about none. -/
theorem filter_subject_findingsOf {subject : Subject} (hsingle : ∀ a b, subject ≠ .pair a b) :
    (v.findingsOf c done).filter (fun f => decide (f.subject = subject)) =
      v.oracleFindings.filter (fun f => decide (f.subject = subject)) ++
        done.flatMap fun entry =>
          (entry.2.findings v entry.1).filter fun f => decide (f.subject = subject) := by
  have hcross : (if c.mode = .parity then Exercise.allCrossFindings v done else []).filter
      (fun f => decide (f.subject = subject)) = [] := by
    refine filter_subject_eq_nil fun f hf => ?_
    by_cases hmode : c.mode = .parity
    · rw [if_pos hmode] at hf
      obtain ⟨first, second, _, hf⟩ := Exercise.exists_pair_of_mem_allCrossFindings v hf
      rw [(Exercise.subject_of_mem_crossFindings v first second hf).1]
      exact (hsingle first.1 second.1).symm
    · rw [if_neg hmode] at hf
      cases hf
  rw [findingsOf, List.filter_append, List.filter_append, hcross, List.append_nil,
    List.filter_flatMap]

/-- What is found about the canonical codec is what it adds. -/
theorem ofSubject_oracle_findingsOf :
    (v.findingsOf c done).filter (fun f => decide (f.subject = .oracle)) = v.oracleFindings := by
  have hadapters : (done.flatMap fun entry =>
      (entry.2.findings v entry.1).filter fun f => decide (f.subject = .oracle)) = [] := by
    refine List.flatMap_eq_nil_iff.mpr fun entry _ => filter_subject_eq_nil fun f hf => ?_
    rw [(Exercise.subject_of_mem_findings v entry.1 entry.2 hf).1]
    exact Subject.noConfusion
  rw [v.filter_subject_findingsOf c fun _ _ => Subject.noConfusion, hadapters, List.append_nil]
  exact filter_subject_eq_self fun f hf => (v.subject_of_mem_oracleFindings hf).1

/-- Between adapters of distinct names, what is found about one is what its own calls add. -/
theorem ofSubject_adapter_findingsOf (hnames : (done.map Prod.fst).Nodup)
    {entry : String × Exercise} (hentry : entry ∈ done) :
    (v.findingsOf c done).filter (fun f => decide (f.subject = .adapter entry.1)) =
      entry.2.findings v entry.1 := by
  have horacle : v.oracleFindings.filter (fun f => decide (f.subject = .adapter entry.1)) = [] := by
    refine filter_subject_eq_nil fun f hf => ?_
    rw [(v.subject_of_mem_oracleFindings hf).1]
    exact Subject.noConfusion
  have hothers : ∀ other ∈ done, other.1 ≠ entry.1 →
      (other.2.findings v other.1).filter (fun f => decide (f.subject = .adapter entry.1)) = [] := by
    refine fun other _ hne => filter_subject_eq_nil fun f hf => ?_
    rw [(Exercise.subject_of_mem_findings v other.1 other.2 hf).1]
    exact fun hsame => hne (Subject.adapter.inj hsame)
  rw [v.filter_subject_findingsOf c fun _ _ => Subject.noConfusion, horacle, List.nil_append,
    flatMap_eq_of_mem hnames hentry hothers]
  exact filter_subject_eq_self fun f hf =>
    (Exercise.subject_of_mem_findings v entry.1 entry.2 hf).1

end TestVector

/-- The verdicts on an adapter depend on no more of the configuration than the time it has for a call,
and whether decoded values are encoded again. -/
theorem Exercise.ofAnswers_congr {c c' : Config} (htimeout : c.timeout = c'.timeout)
    (hroundtrip : c.roundtrip = c'.roundtrip) (answers : Answers) :
    ofAnswers c answers = ofAnswers c' answers := by
  rw [ofAnswers, ofAnswers, htimeout, hroundtrip]

namespace TestVector

variable {c : Config} {adapters : List Adapter} {answers : Adapter → Answers} {index : Nat}
  {v : TestVector} {r : VectorResult}

/-- What a result holds about the canonical codec is what the codec adds for the vector, and about an
adapter what the adapter's calls add. -/
theorem ofSubject_of_evaluate (hcheck : c.check (Parity.names adapters) = .ok ())
    (hr : v.evaluate c adapters answers index = .ok r) :
    r.ofSubject .oracle = v.oracleFindings ∧ ∀ a ∈ adapters,
      r.ofSubject (.adapter a.name) = (Exercise.ofAnswers c (answers a)).findings v a.name := by
  obtain ⟨-, -, -, done, hdone, hfindings⟩ := exists_exercises_of_evaluate hr
  have hnames := nodup_exercises hcheck hdone
  obtain ⟨-, rfl⟩ := exercises_eq_ok_iff.mp hdone
  simp only [VectorResult.ofSubject, hfindings]
  refine ⟨v.ofSubject_oracle_findingsOf c, fun a ha => ?_⟩
  have hentry : (a.name, Exercise.ofAnswers c (answers a)) ∈
      adapters.map fun a => (a.name, Exercise.ofAnswers c (answers a)) := List.mem_map_of_mem ha
  exact v.ofSubject_adapter_findingsOf c hnames hentry

/-- At another position a vector has the same result, with another number. -/
theorem evaluate_renumber (hr : v.evaluate c adapters answers index = .ok r) (other : Nat) :
    v.evaluate c adapters answers other = .ok { r with index := other } := by
  obtain ⟨hcallable, rfl⟩ := evaluate_eq_ok_iff.mp hr
  exact evaluate_eq_ok_iff.mpr ⟨hcallable, rfl⟩

end TestVector

/-- The results whose case names start in a given way, numbered anew. -/
def Report.startingWith (report : Report) (start : String) : Report :=
  { report with
    results := (report.results.filter fun r => Text.beginsWith start r.caseName).mapIdx
      fun index r => { r with index } }

namespace Parity

variable {c : Config} {adapters : List Adapter} {corpus : Corpus}

/-- Where answers do not depend on positions, part of the vectors have that part of the results, only
numbered anew. -/
theorem evaluateFrom_filter {answers : TestVector → Adapter → Answers} {vectors : List TestVector}
    {results : List VectorResult} {index : Nat}
    (hresults : evaluateFrom c adapters (fun _ => answers) index vectors = .ok results)
    (start : String) (other : Nat) :
    evaluateFrom c adapters (fun _ => answers) other
        (vectors.filter fun v => Text.beginsWith start v.caseName) =
      .ok ((results.filter fun r => Text.beginsWith start r.caseName).mapIdx
        fun i r => { r with index := other + i }) := by
  induction vectors generalizing index results other with
  | nil =>
    cases hresults
    rfl
  | cons v rest ih =>
    obtain ⟨r, others, hr, hothers, rfl⟩ := evaluateFrom_cons_eq_ok.mp hresults
    obtain ⟨-, hname, -, -⟩ := TestVector.exists_exercises_of_evaluate hr
    rw [List.filter_cons, List.filter_cons, hname]
    cases Text.beginsWith start v.caseName with
    | true =>
      rw [if_pos rfl, if_pos rfl, List.mapIdx_cons]
      refine evaluateFrom_cons_eq_ok.mpr ⟨_, _, TestVector.evaluate_renumber hr other,
        ih hothers (other + 1), ?_⟩
      simp only [Nat.add_zero, Nat.add_assoc, Nat.add_comm 1]
    | false =>
      rw [if_neg Bool.false_ne_true, if_neg Bool.false_ne_true]
      exact ih hothers other

/-- A run of the vectors whose case names start in a given way returns the same as the run of all, with
only the results for these. -/
theorem run_filter_of_returned {result : Except RunError Report}
    (hrun : run c adapters corpus = .returned result) (start : String) :
    run c adapters (corpus.filter start) =
      .returned (result.map fun report => report.startingWith start) := by
  obtain ⟨_, _, hwork⟩ | ⟨ending, hnone, hending⟩ := session_snd_cases c adapters
  · rw [run, trace, traceAnswered, hwork, work] at hrun ⊢
    cases hresults : evaluateFrom c adapters (fun _ v a => a.answers v) 0 corpus.vectors with
    | error panic =>
      rw [hresults] at hrun
      cases hrun
    | ok results =>
      have hfilter := evaluateFrom_filter hresults start 0
      simp only [Nat.zero_add] at hfilter
      rw [hresults] at hrun
      cases hrun
      rw [Corpus.filter, hfilter, WorkEnd.runEnd, report, collect_results hfilter, Except.map,
        report, collect_results hresults, Report.startingWith]
  · rw [run, trace, traceAnswered, hending] at hrun ⊢
    cases result with
    | error fault => exact hrun
    | ok report => exact absurd hrun (hnone report)

/-- Where the run of all vectors is taken down, so is that of part of them, unless there are none. -/
theorem run_filter_of_panicked {panic : Panic} (hrun : run c adapters corpus = .panicked panic)
    (start : String) :
    run c adapters (corpus.filter start) = .panicked panic ∨ (corpus.filter start).vectors = [] := by
  obtain ⟨_, _, hwork⟩ | ⟨ending, _, hending⟩ := session_snd_cases c adapters
  · rw [or_iff_not_imp_right]
    intro hsome
    rw [run, trace, traceAnswered, hwork, work] at hrun ⊢
    cases hresults : evaluateFrom c adapters (fun _ v a => a.answers v) 0 corpus.vectors with
    | ok results =>
      rw [hresults] at hrun
      cases hrun
    | error fault =>
      rw [hresults] at hrun
      cases hrun
      have hpanic := (evaluateFrom_eq_error_iff.mp hresults).2
      rw [evaluateFrom_eq_error_iff.mpr ⟨hsome, hpanic⟩, WorkEnd.runEnd]
  · rw [run, trace, traceAnswered, hending] at hrun ⊢
    exact Or.inl hrun

/-- Two runs that give calls the same time, and encode decoded values again both or neither, find the
same about the canonical codec and about each adapter that is in both, for each vector that is in
both. A run of the vectors whose case names start in a given way returns that part of the results, only
numbered anew. What keeps a run from having a report is the configuration, an adapter that does not
start, or one that cannot be called: such an adapter takes a run down, and a run of part of the vectors
with it, unless there are none. -/
theorem findings_isolated (c : Config) (adapters : List Adapter) (corpus : Corpus) :
    ((∃ report, run c adapters corpus = .returned (.ok report)) ↔
      c.check (names adapters) = .ok () ∧ (∀ a ∈ adapters, a.start = .started) ∧
        (corpus.vectors = [] ∨ ∀ a ∈ adapters, a.Callable)) ∧
    (∀ (c' : Config) (adapters' : List Adapter) (corpus' : Corpus) (report report' : Report),
      c.timeout = c'.timeout → c.roundtrip = c'.roundtrip →
      run c adapters corpus = .returned (.ok report) →
      run c' adapters' corpus' = .returned (.ok report') →
      ∀ (index index' : Nat) (v : TestVector), corpus.vectors[index]? = some v →
        corpus'.vectors[index']? = some v → ∃ result result',
          report.results[index]? = some result ∧ report'.results[index']? = some result' ∧
          result.caseName = v.caseName ∧ result'.caseName = v.caseName ∧
          result.ofSubject .oracle = result'.ofSubject .oracle ∧
          ∀ a ∈ adapters, a ∈ adapters' →
            result.ofSubject (.adapter a.name) = result'.ofSubject (.adapter a.name)) ∧
    ∀ start,
      (∀ result, run c adapters corpus = .returned result →
        run c adapters (corpus.filter start) =
          .returned (result.map fun report => report.startingWith start)) ∧
      ∀ panic, run c adapters corpus = .panicked panic →
        run c adapters (corpus.filter start) = .panicked panic ∨
          (corpus.filter start).vectors = [] := by
  refine ⟨exists_report_iff c adapters _ corpus, ?_, fun start => ⟨fun result hrun => ?_,
    fun panic hrun => ?_⟩⟩
  · intro c' adapters' corpus' report report' htimeout hroundtrip hrun hrun' index index' v hv hv'
    obtain ⟨hcheck, hresults⟩ := results_of_runAnswered hrun
    obtain ⟨hcheck', hresults'⟩ := results_of_runAnswered hrun'
    obtain ⟨result, hresult, hr⟩ := result_of_vector hresults hv
    obtain ⟨result', hresult', hr'⟩ := result_of_vector hresults' hv'
    obtain ⟨horacle, hadapters⟩ := TestVector.ofSubject_of_evaluate hcheck hr
    obtain ⟨horacle', hadapters'⟩ := TestVector.ofSubject_of_evaluate hcheck' hr'
    obtain ⟨-, hname, -⟩ := TestVector.exists_exercises_of_evaluate hr
    obtain ⟨-, hname', -⟩ := TestVector.exists_exercises_of_evaluate hr'
    refine ⟨result, result', hresult, hresult', hname, hname', ?_, fun a ha ha' => ?_⟩
    · rw [horacle, horacle']
    · rw [hadapters a ha, hadapters' a ha', Exercise.ofAnswers_congr htimeout hroundtrip]
  · exact run_filter_of_returned hrun start
  · exact run_filter_of_panicked hrun start

/-- A codec of the opposite byte order is found to be that beside one that is too slow and one that
fails, as it is alone. Beside one that cannot be called it is not found to be anything. -/
theorem findings_isolated_swapped :
    let c := { Config.default with mode := .parity }
    let a := Adapter.swapped "swapped"
    let nameless := Adapter.reference "a\x00b"
    let adapters := [.slow "slow" 20000, a, .failing "failing" "no codec"]
    let corpus : Corpus :=
      ⟨"", .unset, [], [Samples.vectorOfU16 "six" 6, Samples.vectorOfU16 "seven" 7]⟩
    let corpus' : Corpus := ⟨"", .unset, [], [Samples.vectorOfU16 "seven" 7]⟩
    (∃ (report report' : Report) (result result' : VectorResult),
      run c adapters corpus = .returned (.ok report) ∧
      run .default [a] corpus' = .returned (.ok report') ∧
      report.results[1]? = some result ∧ report'.results[0]? = some result' ∧
      result.findings.length = 6 ∧ result'.findings.length = 2 ∧
      result.ofSubject .oracle = result'.ofSubject .oracle ∧
      result.ofSubject (.adapter "swapped") = result'.ofSubject (.adapter "swapped") ∧
      run c adapters (corpus.filter "se") = .returned (.ok (report.startingWith "se"))) ∧
    run c [a, nameless] corpus = .panicked (.threadName (threadName nameless.name)) ∧
    run c [a, nameless] (corpus.filter "se") =
      .panicked (.threadName (threadName nameless.name)) := by
  intro c a nameless adapters corpus corpus'
  obtain ⟨hreturns, hshared, hfilter⟩ := findings_isolated c adapters corpus
  obtain ⟨report, hrun⟩ := hreturns.mpr ⟨by decide, by decide, Or.inr (by decide)⟩
  obtain ⟨report', hrun'⟩ := (findings_isolated .default [a] corpus').1.mpr
    ⟨by decide, by decide, Or.inr (by decide)⟩
  obtain ⟨result, result', hresult, hresult', _, _, horacle, hadapters⟩ :=
    hshared .default [a] corpus' report report' rfl rfl hrun hrun' 1 0 _ rfl rfl
  have hlength : result.findings.length = 6 := by
    obtain ⟨r, hr, hevaluate⟩ := result_of_vector (results_of_runAnswered hrun).2
      (show corpus.vectors[1]? = some (Samples.vectorOfU16 "seven" 7) from rfl)
    cases hresult.symm.trans hr
    rw [← (TestVector.evaluate_eq_ok_iff.mp hevaluate).2]
    rfl
  have hlength' : result'.findings.length = 2 := by
    obtain ⟨r, hr, hevaluate⟩ := result_of_vector (results_of_runAnswered hrun').2
      (show corpus'.vectors[0]? = some (Samples.vectorOfU16 "seven" 7) from rfl)
    cases hresult'.symm.trans hr
    rw [← (TestVector.evaluate_eq_ok_iff.mp hevaluate).2]
    rfl
  have hfirst : a.Callable := by decide
  have hnameless : ¬nameless.Callable := by decide
  have hpanic : runAnswered c [a, nameless] (fun _ v a => a.answers v) corpus =
      .panicked (.threadName (threadName nameless.name)) :=
    runAnswered_eq_panicked (by decide) (by decide) (by simp [corpus])
      (by simp [uncallable?, hfirst, hnameless])
  obtain hfiltered | hnone := ((findings_isolated c [a, nameless] corpus).2.2 "se").2 _ hpanic
  · exact ⟨⟨report, report', result, result', hrun, hrun', hresult, hresult', hlength, hlength',
      horacle, hadapters a (by simp [adapters]) (by simp), (hfilter "se").1 _ hrun⟩, hpanic, hfiltered⟩
  · cases hnone

end Parity

end WireParity
