import WireParity.Proofs.Parity.Session
import Mathlib.Data.List.Perm.Basic
import Mathlib.Logic.Relation

/-!
# Workers

A run may hand its vectors to workers. They take vectors and complete results in an order that nobody
controls, and some of them may be lost to a panic. Whatever they do, each vector is waiting, in work,
completed or lost, and that is what one step of a pool preserves. A pool that comes to its end without a
panic has therefore completed the results of the corpus in some order, and every order is that of some
pool: `Pool.completes_iff`.

`Runs` are the courses that a run with workers may take. The run that goes through the corpus in order
is one of them.
-/

namespace WireParity

/-- A result but for how long it took. -/
def VectorResult.untimed (r : VectorResult) : VectorResult := { r with elapsed := 0 }

/-- The time that results took is not what they go by. -/
@[simp] theorem VectorResult.map_index_untimed (results : List VectorResult) :
    (results.map VectorResult.untimed).map VectorResult.index = results.map VectorResult.index :=
  List.map_map

/-- The results of `evaluate` have no time. -/
theorem TestVector.untimed_of_evaluate {c : Config} {adapters : List Adapter}
    {answers : Adapter → Answers} {index : Nat} {v : TestVector} {r : VectorResult}
    (hr : v.evaluate c adapters answers index = .ok r) : r.untimed = r := by
  rw [← (evaluate_eq_ok_iff.mp hr).2, VectorResult.untimed]

namespace Parity

/-- Neither have those of `evaluateFrom`. -/
theorem untimed_of_results {c : Config} {adapters : List Adapter}
    {answers : Nat → TestVector → Adapter → Answers} {vectors : List TestVector}
    {results : List VectorResult}
    (hresults : evaluateFrom c adapters answers 0 vectors = .ok results) :
    results.map VectorResult.untimed = results := by
  refine (List.map_congr_left fun r hr => ?_).trans (List.map_id results)
  obtain ⟨_, _, -, hevaluate⟩ := vector_of_result hresults hr
  exact TestVector.untimed_of_evaluate hevaluate

/-- Workers on vectors: the vectors that none has taken, those in work, the results in the order in
which they were completed, and the panics in which others were lost. A vector goes with its position. -/
structure Pool where
  waiting : List (Nat × TestVector)
  working : List (Nat × TestVector)
  completed : List VectorResult
  lost : List Panic

namespace Pool

/-- A pool before any of its vectors is taken. -/
def start (vectors : List TestVector) : Pool := ⟨vectors.mapIdx Prod.mk, [], [], []⟩

section Working

variable (c : Config) (adapters : List Adapter) (answers : Nat → TestVector → Adapter → Answers)

/-- What work on a vector comes to. -/
def outcome (entry : Nat × TestVector) : Except Panic VectorResult :=
  entry.2.evaluate c adapters (answers entry.1 entry.2) entry.1

/-- What a pool of workers may do next. A free worker takes any vector that is waiting, one that works
on a vector completes its result in some time, or one is taken down by a panic. There are no more
vectors in work than jobs, where their number is set. -/
inductive Step : Pool → Pool → Prop
  | take (front : List (Nat × TestVector)) (entry : Nat × TestVector)
      (rest working : List (Nat × TestVector)) (completed : List VectorResult) (lost : List Panic)
      (hfree : ∀ limit, c.jobs = some limit → working.length < limit) :
      Step ⟨front ++ entry :: rest, working, completed, lost⟩
        ⟨front ++ rest, entry :: working, completed, lost⟩
  | complete (waiting front : List (Nat × TestVector)) (entry : Nat × TestVector)
      (rest : List (Nat × TestVector)) (completed : List VectorResult) (lost : List Panic)
      (r : VectorResult) (hr : outcome c adapters answers entry = .ok r) (elapsed : Nat) :
      Step ⟨waiting, front ++ entry :: rest, completed, lost⟩
        ⟨waiting, front ++ rest, completed ++ [{ r with elapsed }], lost⟩
  | fail (waiting front : List (Nat × TestVector)) (entry : Nat × TestVector)
      (rest : List (Nat × TestVector)) (completed : List VectorResult) (lost : List Panic)
      (panic : Panic) (hpanic : outcome c adapters answers entry = .error panic) :
      Step ⟨waiting, front ++ entry :: rest, completed, lost⟩
        ⟨waiting, front ++ rest, completed, lost ++ [panic]⟩

/-- Some steps, one after another. -/
abbrev Steps : Pool → Pool → Prop := Relation.ReflTransGen (Step c adapters answers)

/-- What becomes of the vectors of a pool, both what is already done and what is still to come. -/
def outlook (pool : Pool) : List (Except Panic VectorResult) :=
  (pool.waiting ++ pool.working).map (outcome c adapters answers) ++
    ((pool.completed.map VectorResult.untimed).map .ok ++ pool.lost.map .error)

end Working

/-- Taking an item out of one list and into another moves nothing else. -/
theorem perm_moved {α : Type} (front rest done others : List α) (item : α) :
    ((front ++ rest) ++ (done ++ item :: others)).Perm
      ((front ++ item :: rest) ++ (done ++ others)) := by
  simp only [List.append_assoc, List.cons_append]
  have hleft := @List.perm_middle _ item (front ++ (rest ++ done)) others
  have hright := @List.perm_middle _ item front (rest ++ (done ++ others))
  simp only [List.append_assoc] at hleft
  exact hleft.trans hright.symm

variable {c : Config} {adapters : List Adapter} {answers : Nat → TestVector → Adapter → Answers}
  {pool next : Pool} {vectors : List TestVector}

/-- A step loses nothing that becomes of a vector and makes nothing twice. -/
theorem Step.outlook_perm (hstep : Step c adapters answers pool next) :
    (next.outlook c adapters answers).Perm (pool.outlook c adapters answers) := by
  cases hstep with
  | take front entry rest working completed lost =>
    refine List.Perm.append_right _ (List.Perm.map _ ?_)
    have hmoved := perm_moved front rest [] working entry
    simpa only [List.nil_append] using hmoved
  | complete waiting front entry rest completed lost r hr elapsed =>
    have huntimed : { r with elapsed }.untimed = r := TestVector.untimed_of_evaluate hr
    have hmoved := perm_moved ((waiting ++ front).map (outcome c adapters answers))
      (rest.map (outcome c adapters answers)) ((completed.map VectorResult.untimed).map .ok)
      (lost.map .error) (.ok r)
    simpa only [outlook, List.map_append, List.map_cons, List.map_nil, List.append_assoc,
      List.singleton_append, huntimed, hr] using hmoved
  | fail waiting front entry rest completed lost panic hpanic =>
    have hmoved := perm_moved ((waiting ++ front).map (outcome c adapters answers))
      (rest.map (outcome c adapters answers))
      ((completed.map VectorResult.untimed).map .ok ++ lost.map .error) [] (.error panic)
    simpa only [outlook, List.map_append, List.map_cons, List.map_nil, List.append_assoc,
      List.append_nil, hpanic] using hmoved

/-- Neither do steps one after another. -/
theorem outlook_perm (hsteps : Steps c adapters answers pool next) :
    (next.outlook c adapters answers).Perm (pool.outlook c adapters answers) := by
  induction hsteps with
  | refl => exact List.Perm.refl _
  | tail _ hstep ih => exact hstep.outlook_perm.trans ih

/-- What becomes of vectors that are all waiting is what they are evaluated to. -/
theorem outlook_start (vectors : List TestVector) :
    (start vectors).outlook c adapters answers =
      vectors.mapIdx fun index v => v.evaluate c adapters (answers index v) index := by
  simp only [outlook, start, List.append_nil, List.map_nil]
  rw [List.mapIdx_eq_zipIdx_map, List.mapIdx_eq_zipIdx_map, List.map_map]
  rfl

/-- Where every vector has a result, that is what becomes of it. -/
theorem outlook_start_of_results {results : List VectorResult}
    (hresults : evaluateFrom c adapters answers 0 vectors = .ok results) :
    (start vectors).outlook c adapters answers = results.map .ok := by
  have houtcomes := evaluateFrom_eq_ok_iff.mp hresults
  simp only [Nat.zero_add] at houtcomes
  rw [outlook_start, houtcomes]

/-- What has become of vectors in a pool at its end is what was completed. -/
theorem outlook_end (completed : List VectorResult) :
    outlook c adapters answers ⟨[], [], completed, []⟩ =
      (completed.map VectorResult.untimed).map .ok := by
  simp only [outlook, List.append_nil, List.map_nil, List.nil_append]

/-- While nothing is in work, some worker is free. -/
theorem free_of_jobs (hjobs : c.jobs ≠ some 0) :
    ∀ limit, c.jobs = some limit → ([] : List (Nat × TestVector)).length < limit := by
  intro limit hlimit
  exact Nat.pos_of_ne_zero fun hzero => hjobs (hzero ▸ hlimit)

/-- Workers that each complete what they took before the next one takes a vector complete results in
any order that is wanted. -/
theorem exists_steps (hjobs : c.jobs ≠ some 0) {completed : List VectorResult}
    {waiting : List (Nat × TestVector)} (before : List VectorResult)
    (hperm : ((completed.map VectorResult.untimed).map .ok).Perm
      (waiting.map (outcome c adapters answers))) :
    Steps c adapters answers ⟨waiting, [], before, []⟩ ⟨[], [], before ++ completed, []⟩ := by
  induction completed generalizing waiting before with
  | nil =>
    rw [List.map_nil, List.map_nil, List.nil_perm, List.map_eq_nil_iff] at hperm
    rw [hperm, List.append_nil]
  | cons r completed ih =>
    rw [List.map_cons, List.map_cons] at hperm
    obtain ⟨entry, hentry, hr⟩ := List.mem_map.mp (hperm.subset List.mem_cons_self)
    obtain ⟨front, rest, rfl⟩ := List.append_of_mem hentry
    have htake : Step c adapters answers ⟨front ++ entry :: rest, [], before, []⟩
        ⟨front ++ rest, [entry], before, []⟩ := .take front entry rest [] before [] (free_of_jobs hjobs)
    have hcomplete : Step c adapters answers ⟨front ++ rest, [entry], before, []⟩
        ⟨front ++ rest, [], before ++ [r], []⟩ :=
      .complete (front ++ rest) [] entry [] before [] r.untimed hr r.elapsed
    have hrest : ((completed.map VectorResult.untimed).map .ok).Perm
        ((front ++ rest).map (outcome c adapters answers)) := by
      rw [List.map_append, List.map_cons, hr] at hperm
      rw [List.map_append]
      exact (hperm.trans List.perm_middle).cons_inv
    have hlater := ih (before ++ [r]) hrest
    rw [List.append_assoc, List.singleton_append] at hlater
    exact .head htake (.head hcomplete hlater)

/-- The orders in which workers may complete the results for vectors are all that there are. -/
theorem completes_iff (hjobs : c.jobs ≠ some 0) (completed : List VectorResult) :
    Steps c adapters answers (start vectors) ⟨[], [], completed, []⟩ ↔
      ∃ results, evaluateFrom c adapters answers 0 vectors = .ok results ∧
        (completed.map VectorResult.untimed).Perm results := by
  constructor
  · intro hsteps
    have hperm := outlook_perm hsteps
    rw [outlook_end] at hperm
    cases houtcome : evaluateFrom c adapters answers 0 vectors with
    | ok results =>
      rw [outlook_start_of_results houtcome,
        List.map_perm_map_iff fun _ _ => Except.ok.inj] at hperm
      exact ⟨results, rfl, hperm⟩
    | error panic =>
      -- The first vector would be lost, so it could not be among the completed ones.
      obtain ⟨hvectors, hpanic⟩ := evaluateFrom_eq_error_iff.mp houtcome
      obtain ⟨v, rest, rfl⟩ := List.exists_cons_of_ne_nil hvectors
      rw [outlook_start, List.mapIdx_cons, TestVector.evaluate_eq_error_iff.mpr hpanic] at hperm
      obtain ⟨r, -, hr⟩ := List.mem_map.mp (hperm.symm.subset List.mem_cons_self)
      cases hr
  · rintro ⟨results, hresults, hperm⟩
    have hwaiting := outlook_start_of_results hresults
    simp only [outlook, start, List.append_nil, List.map_nil] at hwaiting
    exact exists_steps hjobs [] ((hperm.map Except.ok).trans (.of_eq hwaiting.symm))

end Pool

section Runs

variable (c : Config) (adapters : List Adapter) (answers : Nat → TestVector → Adapter → Answers)
  (corpus : Corpus)

/-- How work on a corpus may end that is left to workers: their pool comes to its end, or they cannot
be started, or some of them are taken down, which takes the run down once the others have come to some
place. -/
inductive Works : WorkEnd → Prop
  | completed (results : List VectorResult)
      (hsteps : Pool.Steps c adapters answers (.start corpus.vectors) ⟨[], [], results, []⟩) :
      Works (.completed results)
  | refused (jobs : Nat) (reason : String) (hjobs : c.jobs = some jobs) :
      Works (.refused (.workersNotStarted jobs reason))
  | panicked (pool : Pool) (panic : Panic)
      (hsteps : Pool.Steps c adapters answers (.start corpus.vectors) pool)
      (hlost : panic ∈ pool.lost) : Works (.panicked pool.completed panic)

/-- The courses that a run may take with workers. -/
def Runs (course : List Event × RunEnd) : Prop :=
  ∃ work, Works c adapters answers corpus work ∧ course = session c adapters work

variable {c adapters answers corpus}

/-- Going through the corpus in order is a way to work on it. -/
theorem works_work (hjobs : c.jobs ≠ some 0) :
    Works c adapters answers corpus (work c adapters answers corpus) := by
  rw [work]
  cases houtcome : evaluateFrom c adapters answers 0 corpus.vectors with
  | ok results =>
    refine .completed results ((Pool.completes_iff hjobs results).mpr ⟨results, houtcome, ?_⟩)
    rw [untimed_of_results houtcome]
  | error panic =>
    obtain ⟨hvectors, hpanic⟩ := evaluateFrom_eq_error_iff.mp houtcome
    obtain ⟨v, rest, hcorpus⟩ := List.exists_cons_of_ne_nil hvectors
    let others := rest.mapIdx fun index => Prod.mk (index + 1)
    have htake : Pool.Step c adapters answers ⟨(0, v) :: others, [], [], []⟩
        ⟨others, [(0, v)], [], []⟩ := .take [] (0, v) others [] [] [] (Pool.free_of_jobs hjobs)
    have hfail : Pool.Step c adapters answers ⟨others, [(0, v)], [], []⟩ ⟨others, [], [], [panic]⟩ :=
      .fail others [] (0, v) [] [] [] panic (TestVector.evaluate_eq_error_iff.mpr hpanic)
    have hsteps : Pool.Steps c adapters answers (.start corpus.vectors)
        ⟨others, [], [], [panic]⟩ := by
      rw [hcorpus, Pool.start, List.mapIdx_cons]
      exact .head htake (.single hfail)
    exact .panicked _ panic hsteps List.mem_cons_self

variable (c adapters answers corpus) in
/-- The run that goes through the corpus in order is one of the runs with workers. -/
theorem runs_traceAnswered :
    Runs c adapters answers corpus (traceAnswered c adapters answers corpus) := by
  by_cases hjobs : c.jobs = some 0
  · -- Without workers the configuration is not accepted, and there is no work.
    refine ⟨_, .refused 0 "" hjobs, ?_⟩
    rw [traceAnswered, session, session]
    cases hcheck : c.check (names adapters) with
    | error fault => rfl
    | ok done => exact absurd hjobs (Config.check_eq_ok_iff.mp hcheck).2.2.2.2
  · exact ⟨_, works_work hjobs, rfl⟩

end Runs

end Parity

end WireParity
