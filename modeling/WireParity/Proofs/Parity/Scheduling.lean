import WireParity.Proofs.Parity.Workers
import WireParity.Samples
import Mathlib.Data.List.Nodup
import Mathlib.Data.List.Sort

/-!
# Workers and the report

Workers complete the results of a corpus in any order, and the report does not show which. A result goes
by the position that its vector had before it was handed out, positions are distinct, and so sorting by
them undoes the order of completion: but for durations, what is left is what `evaluateFrom` comes to.
-/

namespace WireParity

/-- A report but for how long it and its results took. -/
def Report.untimed (r : Report) : Report :=
  { r with results := r.results.map VectorResult.untimed, elapsed := 0 }

namespace Parity

/-- The contract on the order of results is kept exactly by indices that count up. -/
theorem misplaced?_eq_none_iff {position : Nat} {indices : List Nat} :
    misplaced? position indices = none ↔ indices = List.range' position indices.length := by
  induction indices generalizing position with
  | nil => simp [misplaced?]
  | cons index rest ih =>
    rw [misplaced?, List.length_cons, List.range'_succ, List.cons.injEq]
    by_cases hindex : position = index
    · rw [if_pos hindex, ih]
      simp [hindex]
    · simp [hindex, Ne.symm hindex]

/-- Collecting results puts them into the order of their indices. -/
theorem pairwise_collect (completed : List VectorResult) :
    (collect completed).Pairwise fun a b => a.index ≤ b.index := by
  have hordered : (collect completed).Pairwise fun a b => decide (a.index ≤ b.index) = true := by
    refine List.pairwise_mergeSort (fun a b c hab hbc => ?_) (fun a b => ?_) completed
    · exact decide_eq_true (Nat.le_trans (of_decide_eq_true hab) (of_decide_eq_true hbc))
    · simpa using Nat.le_total a.index b.index
  simpa only [decide_eq_true_eq] using hordered

section Collecting

variable {c : Config} {adapters : List Adapter} {answers : Nat → TestVector → Adapter → Answers}
  {vectors : List TestVector} {completed results : List VectorResult}

/-- Collecting results undoes the order in which they were completed. -/
theorem collect_untimed_of_perm (hresults : evaluateFrom c adapters answers 0 vectors = .ok results)
    (hperm : (completed.map VectorResult.untimed).Perm results) :
    (collect completed).map VectorResult.untimed = results := by
  have hindices := indices_of_results hresults
  have hordered : results.Pairwise fun a b => a.index ≤ b.index := by
    refine List.pairwise_map.mp ?_
    rw [hindices]
    exact List.pairwise_le_range'
  have hcollected : ((collect completed).map VectorResult.untimed).Pairwise
      fun a b => a.index ≤ b.index := List.pairwise_map.mpr (pairwise_collect completed)
  have hsame : ((collect completed).map VectorResult.untimed).Perm results :=
    ((List.mergeSort_perm _ _).map _).trans hperm
  -- Two results with one index are one result, as the indices are all different.
  have hnodup : (results.map VectorResult.index).Nodup := hindices ▸ List.nodup_range'
  refine List.Perm.eq_of_pairwise (fun a b ha hb hab hba => ?_) hcollected hordered hsame
  exact List.inj_on_of_nodup_map hnodup (hsame.subset ha) hb (Nat.le_antisymm hab hba)

/-- Collected results are numbered by position. -/
theorem indices_of_perm (hresults : evaluateFrom c adapters answers 0 vectors = .ok results)
    (hperm : (completed.map VectorResult.untimed).Perm results) :
    (collect completed).map VectorResult.index = List.range vectors.length := by
  rw [← VectorResult.map_index_untimed, collect_untimed_of_perm hresults hperm,
    indices_of_results hresults, List.range_eq_range']

/-- A collected result is in its place, and is what its vector was evaluated to. -/
theorem result_of_perm (hresults : evaluateFrom c adapters answers 0 vectors = .ok results)
    (hperm : (completed.map VectorResult.untimed).Perm results) {index : Nat} {v : TestVector}
    (hv : vectors[index]? = some v) :
    ∃ r, (collect completed)[index]? = some r ∧
      v.evaluate c adapters (answers index v) index = .ok r.untimed := by
  obtain ⟨result, hresult, hevaluate⟩ := result_of_vector hresults hv
  rw [← collect_untimed_of_perm hresults hperm, List.getElem?_map] at hresult
  obtain ⟨r, hr, rfl⟩ := Option.map_eq_some_iff.mp hresult
  exact ⟨r, hr, hevaluate⟩

end Collecting

/-- The number of jobs changes no result. -/
theorem evaluateFrom_jobs (c : Config) (adapters : List Adapter)
    (answers : Nat → TestVector → Adapter → Answers) (jobs : Option Nat) (index : Nat)
    (vectors : List TestVector) :
    evaluateFrom { c with jobs } adapters answers index vectors =
      evaluateFrom c adapters answers index vectors := by
  induction vectors generalizing index with
  | nil => rfl
  | cons v rest ih =>
    rw [evaluateFrom, evaluateFrom, ih]
    rfl

/-- The reports of runs with workers, for any number of jobs and whatever the workers do. But for
durations there is one report, which has the results of `evaluateFrom` in corpus order: one for each
vector, with its case name, type name and findings, so that the contract on their order holds. And
workers may complete the results in any order. -/
theorem report_of_runs (c : Config) (adapters : List Adapter)
    (answers : Nat → TestVector → Adapter → Answers) (corpus : Corpus) :
    (∀ (jobs : Option Nat) (events : List Event) (report : Report),
      Runs { c with jobs } adapters answers corpus (events, .returned (.ok report)) →
      ∃ results, evaluateFrom c adapters answers 0 corpus.vectors = .ok results ∧
        report.untimed = ⟨c.mode, names adapters, results, 0⟩ ∧
        report.results.map VectorResult.index = List.range corpus.vectors.length ∧
        (∀ (index : Nat) (v : TestVector), corpus.vectors[index]? = some v →
          ∃ r : VectorResult, report.results[index]? = some r ∧
            v.evaluate c adapters (answers index v) index = .ok r.untimed ∧
            r.index = index ∧ r.caseName = v.caseName ∧ r.typeName = v.typeName ∧
            ∃ done, TestVector.exercises c adapters (answers index v) = .ok done ∧
              r.findings = v.findingsOf c done) ∧
        misplaced? 0 (report.results.map VectorResult.index) = none) ∧
    ∀ (jobs : Option Nat) (results completed : List VectorResult),
      { c with jobs }.check (names adapters) = .ok () → (∀ a ∈ adapters, a.start = .started) →
      evaluateFrom c adapters answers 0 corpus.vectors = .ok results →
      (completed.map VectorResult.untimed).Perm results →
      ∃ (events : List Event) (report : Report),
        Runs { c with jobs } adapters answers corpus (events, .returned (.ok report)) ∧
          report.results.Perm completed := by
  refine ⟨fun jobs events report hrun => ?_,
    fun jobs results completed hcheck hstart hresults hperm => ?_⟩
  · obtain ⟨work, hwork, hsession⟩ := hrun
    obtain ⟨hcheck, -, completed, rfl, rfl⟩ :=
      session_eq_report_iff.mp (congrArg Prod.snd hsession).symm
    have hjobs := (Config.check_eq_ok_iff.mp hcheck).2.2.2.2
    cases hwork with
    | completed _ hsteps =>
      obtain ⟨results, hresults, hperm⟩ := (Pool.completes_iff hjobs completed).mp hsteps
      rw [evaluateFrom_jobs] at hresults
      have hindices := indices_of_perm hresults hperm
      refine ⟨results, hresults, ?_, hindices, fun index v hv => ?_, ?_⟩
      · rw [Report.untimed, report, collect_untimed_of_perm hresults hperm]
      · obtain ⟨r, hr, hevaluate⟩ := result_of_perm hresults hperm hv
        obtain ⟨hindex, hcase, htype, hdone⟩ := TestVector.exists_exercises_of_evaluate hevaluate
        exact ⟨r, hr, hevaluate, hindex, hcase, htype, hdone⟩
      · rw [misplaced?_eq_none_iff, report, hindices, List.length_range, List.range_eq_range']
  · have hjobs := (Config.check_eq_ok_iff.mp hcheck).2.2.2.2
    rw [← evaluateFrom_jobs c adapters answers jobs] at hresults
    have hsteps := (Pool.completes_iff hjobs completed).mpr ⟨results, hresults, hperm⟩
    refine ⟨(session { c with jobs } adapters (.completed completed)).1,
      report { c with jobs } adapters completed, ⟨_, .completed completed hsteps, ?_⟩,
      List.mergeSort_perm _ _⟩
    exact Prod.ext rfl (session_snd_of_starts (.completed completed) hcheck hstart).symm

/-- Three results that eight workers complete in reverse order stand in corpus order in the report. -/
theorem report_of_runs_reversed :
    let adapters := [Adapter.swapped "swapped"]
    let answers : Nat → TestVector → Adapter → Answers := fun _ v a => a.answers v
    let corpus : Corpus := ⟨"", .unset, [], [Samples.vectorOfU16 "six" 6,
      Samples.vectorOfU16 "seven" 7, Samples.vectorOfU16 "eight" 8]⟩
    let c := { Config.default with jobs := some 8 }
    ∃ (results completed : List VectorResult) (events : List Event) (report : Report),
      evaluateFrom c adapters answers 0 corpus.vectors = .ok results ∧
        completed.map VectorResult.index = [2, 1, 0] ∧
        completed.map VectorResult.elapsed = [12, 11, 10] ∧
        Runs c adapters answers corpus (events, .returned (.ok report)) ∧
        report.results.Perm completed ∧
        report.results.map VectorResult.index = [0, 1, 2] ∧
        report.untimed = ⟨.validate, ["swapped"], results, 0⟩ := by
  intro adapters answers corpus c
  obtain ⟨results, hresults⟩ : ∃ results,
      evaluateFrom .default adapters answers 0 corpus.vectors = .ok results :=
    exists_results_iff.mpr (.inr (by decide))
  have hindices : results.map VectorResult.index = [0, 1, 2] := indices_of_results hresults
  let completed := (results.map fun r => { r with elapsed := 10 + r.index }).reverse
  have hcompleted : completed.map VectorResult.index = [2, 1, 0] := by
    rw [List.map_reverse, List.map_map]
    exact congrArg List.reverse hindices
  have helapsed : completed.map VectorResult.elapsed = [12, 11, 10] := by
    rw [List.map_reverse, List.map_map]
    calc (results.map fun r => 10 + r.index).reverse
        = ((results.map VectorResult.index).map fun index => 10 + index).reverse := by
          rw [List.map_map]
          rfl
      _ = [12, 11, 10] := by rw [hindices]; rfl
  have hperm : (completed.map VectorResult.untimed).Perm results := by
    rw [List.map_reverse, List.map_map]
    refine (List.reverse_perm _).trans (.of_eq ?_)
    exact untimed_of_results hresults
  obtain ⟨hreports, hruns⟩ := report_of_runs .default adapters answers corpus
  obtain ⟨events, report, hrun, hreport⟩ := hruns (some 8) results completed (by decide) (by decide)
    hresults hperm
  obtain ⟨others, hothers, huntimed, hcounted, -⟩ := hreports (some 8) events report hrun
  cases hresults.symm.trans hothers
  exact ⟨results, completed, events, report, (evaluateFrom_jobs ..).trans hresults, hcompleted,
    helapsed, hrun, hreport, hcounted, huntimed⟩

end Parity

end WireParity
