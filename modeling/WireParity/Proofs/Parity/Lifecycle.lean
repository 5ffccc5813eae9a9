import WireParity.Proofs.Parity.Workers
import WireParity.Samples
import Mathlib.Data.List.Count

/-!
# The lifecycle of adapters

A run counts the adapters that it has acquired, and whenever it ends it releases that many, last one
first. `Lease.acquire_append` is the step: adapters that start are acquired in order and counted. From
it follows what happens on each way out, in the run that goes through the corpus in order and in every
run with workers. A refused configuration leaves the adapters alone. An adapter that does not start has
those before it released and those after it never tried. Otherwise all are held from before the first
vector until after the last one that is looked at, and are released whether the work is completed, the
workers cannot be started, or a panic takes the run down.

What adapters do while they are released is not part of this, nor are the resources that they own.
-/

namespace WireParity.Parity

namespace Lease

/-- Ending a lease releases the adapters that were counted, last one first. -/
theorem drop_append (front rest : List Adapter) :
    Lease.drop ⟨front ++ rest, front.length⟩ = front.reverse.map fun a => .released a.name := by
  rw [drop, List.take_left]

/-- The first adapter that does not start has all that were acquired released. -/
theorem acquire_of_ending {front rest : List Adapter} {a : Adapter} {ending : RunEnd}
    (hstart : ∀ b ∈ front, b.start = .started) (hending : a.start.ending? a.name = some ending) :
    Lease.acquire ⟨front ++ a :: rest, 0⟩ (front ++ a :: rest) =
      (front.map (fun b => .acquired b.name) ++
          .refused a.name :: front.reverse.map fun b => .released b.name,
        .error ending) := by
  rw [acquire_append hstart, acquire, hending]
  simp only [Nat.zero_add, drop_append]

end Lease

/-- In a course of events the adapters that are held are acquired once and released once each, and
others are neither acquired nor released. -/
structure HeldOnce (events : List Event) (held others : List Adapter) : Prop where
  acquired : ∀ a ∈ held, events.count (.acquired a.name) = 1
  released : ∀ a ∈ held, events.count (.released a.name) = 1
  notAcquired : ∀ a ∈ others, .acquired a.name ∉ events
  notReleased : ∀ a ∈ others, .released a.name ∉ events

section Counting

variable {make other : String → Event}

/-- An event about each of some adapters is there as often as a name is among theirs. -/
theorem count_map_name (hmake : Function.Injective make) (held : List Adapter) (name : String) :
    (held.map fun a => make a.name).count (make name) = (names held).count name := by
  rw [← List.count_map_of_injective _ _ hmake, names, List.map_map]
  rfl

/-- Events of another kind are not among those about adapters. -/
theorem count_map_other (hother : ∀ x y, make x ≠ other y) (held : List Adapter) (name : String) :
    (held.map fun a => make a.name).count (other name) = 0 := by
  rw [List.count_eq_zero, List.mem_map]
  rintro ⟨a, -, h⟩
  exact hother _ _ h

end Counting

/-- Adapters of distinct names are held once if they are acquired in order, and later on released in
reverse order. -/
theorem HeldOnce.of_nodup {held others : List Adapter} {between : List Event}
    (hnames : (names (held ++ others)).Nodup)
    (hbetween : ∀ name, .acquired name ∉ between ∧ .released name ∉ between) :
    HeldOnce (held.map (fun a => .acquired a.name) ++ between ++
      held.reverse.map fun a => .released a.name) held others := by
  have hacquired : ∀ name, (held.map (fun a => Event.acquired a.name) ++ between ++
      held.reverse.map fun a => Event.released a.name).count (.acquired name) =
        (names held).count name := by
    intro name
    rw [List.count_append, List.count_append, count_map_name fun _ _ => Event.acquired.inj,
      List.count_eq_zero.mpr (hbetween name).1, count_map_other fun _ _ => Event.noConfusion,
      Nat.add_zero]
  have hreleased : ∀ name, (held.map (fun a => Event.acquired a.name) ++ between ++
      held.reverse.map fun a => Event.released a.name).count (.released name) =
        (names held).count name := by
    intro name
    rw [List.count_append, List.count_append, count_map_other fun _ _ => Event.noConfusion,
      List.count_eq_zero.mpr (hbetween name).2, count_map_name fun _ _ => Event.released.inj,
      names, List.map_reverse, List.count_reverse, Nat.zero_add]
    rfl
  rw [names, List.map_append, List.nodup_append] at hnames
  obtain ⟨hheld, -, hapart⟩ := hnames
  have hone : ∀ a ∈ held, (names held).count a.name = 1 := fun a ha =>
    List.count_eq_one_of_mem hheld (List.mem_map_of_mem ha)
  have hzero : ∀ a ∈ others, (names held).count a.name = 0 := fun a ha =>
    List.count_eq_zero.mpr fun hname => hapart _ hname _ (List.mem_map_of_mem ha) rfl
  constructor
  · exact fun a ha => (hacquired a.name).trans (hone a ha)
  · exact fun a ha => (hreleased a.name).trans (hone a ha)
  · exact fun a ha => List.count_eq_zero.mp ((hacquired a.name).trans (hzero a ha))
  · exact fun a ha => List.count_eq_zero.mp ((hreleased a.name).trans (hzero a ha))

section Session

variable {c : Config} {adapters : List Adapter} {answers : Nat → TestVector → Adapter → Answers}
  {corpus : Corpus}

/-- A session in which an adapter does not start ends with the adapters before it. -/
theorem session_of_ending (work : WorkEnd) {before after : List Adapter} {a : Adapter}
    {ending : RunEnd} (hcheck : c.check (names (before ++ a :: after)) = .ok ())
    (hstart : ∀ b ∈ before, b.start = .started) (hending : a.start.ending? a.name = some ending) :
    session c (before ++ a :: after) work =
      (before.map (fun b => .acquired b.name) ++
          .refused a.name :: before.reverse.map fun b => .released b.name, ending) := by
  rw [session, hcheck]
  simp only [Lease.acquire_of_ending hstart hending]

/-- A session whose adapters start holds them all until its end. -/
theorem session_of_starts (work : WorkEnd) (hcheck : c.check (names adapters) = .ok ())
    (hstart : ∀ a ∈ adapters, a.start = .started) :
    session c adapters work =
      (adapters.map (fun a => .acquired a.name) ++
          work.results.map (fun r => .evaluated r.index) ++
          adapters.reverse.map fun a => .released a.name,
        work.runEnd c adapters) := by
  have hdrop := Lease.drop_append adapters []
  rw [List.append_nil] at hdrop
  rw [session, hcheck]
  simp only [Lease.acquire_eq hstart, hdrop]

/-- Adapters that are acquired before an adapter that does not start are held once, and others are left
alone. -/
theorem heldOnce_of_ending {before after : List Adapter} {a : Adapter}
    (hnames : (names (before ++ a :: after)).Nodup) :
    HeldOnce (before.map (fun b => .acquired b.name) ++
      .refused a.name :: before.reverse.map fun b => .released b.name) before (a :: after) := by
  have hbetween : ∀ name, Event.acquired name ∉ [Event.refused a.name] ∧
      Event.released name ∉ [Event.refused a.name] := by simp
  have hheld := HeldOnce.of_nodup hnames hbetween
  rwa [List.append_assoc, List.singleton_append] at hheld

/-- Work that is completed has looked at each vector once. -/
theorem perm_of_works (hcheck : c.check (names adapters) = .ok ()) {completed : List VectorResult}
    (hworks : Works c adapters answers corpus (.completed completed)) :
    (completed.map VectorResult.index).Perm (List.range corpus.vectors.length) := by
  have hjobs := (Config.check_eq_ok_iff.mp hcheck).2.2.2.2
  cases hworks with
  | completed _ hsteps =>
    obtain ⟨results, hresults, hperm⟩ := (Pool.completes_iff hjobs completed).mp hsteps
    rw [List.range_eq_range', ← indices_of_results hresults, ← VectorResult.map_index_untimed]
    exact hperm.map VectorResult.index

end Session

/-- The run in corpus order is one of the runs with workers, and this is what happens in each of them.
A refused configuration touches no adapter. Where an adapter is the first that does not start, those
before it have been acquired once each and are released once each, last one first, before the run ends
with an error, or with a panic if that is how the adapter did not start. Those after it are never tried.
Otherwise all adapters are acquired once each, in order and before the first vector is looked at, and
released once each, last one first and after the last vector, also when workers cannot be started or
are taken down. -/
theorem adapters_released (c : Config) (adapters : List Adapter)
    (answers : Nat → TestVector → Adapter → Answers) (corpus : Corpus) :
    Runs c adapters answers corpus (traceAnswered c adapters answers corpus) ∧
    Runs c adapters (fun _ v a => a.answers v) corpus (trace c adapters corpus) ∧
    (trace c adapters corpus).2 = run c adapters corpus ∧
    ∀ course, Runs c adapters answers corpus course →
      (∀ fault, c.check (names adapters) = .error fault →
        course = ([], .returned (.error (.config fault)))) ∧
      (c.check (names adapters) = .ok () →
        (∀ before a after, adapters = before ++ a :: after → (∀ b ∈ before, b.start = .started) →
          a.start ≠ .started →
          course.1 = before.map (fun b => .acquired b.name) ++
            .refused a.name :: before.reverse.map (fun b => .released b.name) ∧
          (∀ failure, a.start = .refused failure →
            course.2 = .returned (.error (.config (.adapterNotStarted a.name failure.message)))) ∧
          (a.start = .panicked → course.2 = .panicked (.start a.name)) ∧
          HeldOnce course.1 before (a :: after) ∧ ∀ b ∈ after, .refused b.name ∉ course.1) ∧
        ((∀ a ∈ adapters, a.start = .started) →
          HeldOnce course.1 adapters [] ∧
          ∃ work, Works c adapters answers corpus work ∧
            course.1 = adapters.map (fun a => .acquired a.name) ++
              work.results.map (fun r => .evaluated r.index) ++
              adapters.reverse.map (fun a => .released a.name) ∧
            course.2 = work.runEnd c adapters ∧
            ∀ completed, work = .completed completed →
              (completed.map VectorResult.index).Perm (List.range corpus.vectors.length))) := by
  refine ⟨runs_traceAnswered c adapters answers corpus, runs_traceAnswered c adapters _ corpus, rfl, ?_⟩
  rintro course ⟨work, hworks, rfl⟩
  refine ⟨fun fault hfault => ?_, fun hcheck => ⟨?_, fun hstart => ?_⟩⟩
  · rw [session, hfault]
  · rintro before a after rfl hstart hfails
    have hnames := (Config.check_eq_ok_iff.mp hcheck).2.2.1
    obtain ⟨ending, hending⟩ := Option.ne_none_iff_exists'.mp
      fun hnone => hfails (ending?_eq_none_iff.mp hnone)
    have hsession := session_of_ending work hcheck hstart hending
    rw [hsession]
    refine ⟨rfl, fun failure hrefused => ?_, fun hpanicked => ?_, heldOnce_of_ending hnames,
      fun b hb => ?_⟩
    · rw [hrefused] at hending
      exact (Option.some.inj hending).symm
    · rw [hpanicked] at hending
      exact (Option.some.inj hending).symm
    · rw [names, List.map_append, List.nodup_append, List.map_cons, List.nodup_cons] at hnames
      have hne : b.name ≠ a.name := fun h => hnames.2.1.1 (h ▸ List.mem_map_of_mem hb)
      simp [hne]
  · have hnames := (Config.check_eq_ok_iff.mp hcheck).2.2.1
    rw [session_of_starts work hcheck hstart]
    refine ⟨?_, work, hworks, rfl, rfl, fun completed hcompleted => ?_⟩
    · exact HeldOnce.of_nodup (by rwa [List.append_nil]) fun name => by simp
    · exact perm_of_works hcheck (hcompleted ▸ hworks)

/-- The first of some adapters is released whatever becomes of the others: the next one refuses to start
or breaks down, or it cannot be called, or workers do not start, or nothing is wrong and two vectors are
looked at. Without an adapter there is nothing to release. -/
theorem adapters_released_first :
    let first := Adapter.starting "first" false
    let second := Adapter.starting "second" true
    let third := Adapter.starting "third" false
    let broken := { Adapter.reference "broken" with start := .panicked }
    let nameless := Adapter.reference "a\x00b"
    let answers : Nat → TestVector → Adapter → Answers := fun _ v a => a.answers v
    let corpus : Corpus :=
      ⟨"", .unset, [], [Samples.vectorOfU16 "six" 6, Samples.vectorOfU16 "seven" 7]⟩
    trace .default [] corpus = ([], .returned (.error (.config .noAdapters))) ∧
    trace .default [first, second, third] corpus =
      ([.acquired "first", .refused "second", .released "first"],
        .returned (.error (.config (.adapterNotStarted "second" "runtime not installed")))) ∧
    trace .default [first, broken] corpus =
      ([.acquired "first", .refused "broken", .released "first"], .panicked (.start "broken")) ∧
    HeldOnce (trace .default [first, third] corpus).1 [first, third] [] ∧
    (trace .default [first, third] corpus).1 =
      [.acquired "first", .acquired "third", .evaluated 0, .evaluated 1, .released "third",
        .released "first"] ∧
    HeldOnce (trace .default [first, nameless] corpus).1 [first, nameless] [] ∧
    run .default [first, nameless] corpus = .panicked (.threadName (threadName nameless.name)) ∧
    ∃ course, Runs { Config.default with jobs := some 3 } [first, third] answers corpus course ∧
      HeldOnce course.1 [first, third] [] ∧
      course.2 = .returned (.error (.config (.workersNotStarted 3 "out of memory"))) := by
  intro first second third broken nameless answers corpus
  have hreleased (adapters : List Adapter) :=
    (adapters_released .default adapters answers corpus).2.2.2 _
      (adapters_released .default adapters answers corpus).1
  obtain ⟨hsecond, hrefused, -⟩ := ((hreleased [first, second, third]).2 rfl).1 [first] second [third]
    rfl (by decide) (by decide)
  obtain ⟨hbroken, -, hpanicked, -⟩ := ((hreleased [first, broken]).2 rfl).1 [first] broken [] rfl
    (by decide) (by decide)
  obtain ⟨hthird, -⟩ := ((hreleased [first, third]).2 rfl).2 (by decide)
  obtain ⟨hnameless, -⟩ := ((hreleased [first, nameless]).2 rfl).2 (by decide)
  have hworkers : Runs { Config.default with jobs := some 3 } [first, third] answers corpus
      (session { Config.default with jobs := some 3 } [first, third]
        (.refused (.workersNotStarted 3 "out of memory"))) := ⟨_, .refused 3 "out of memory" rfl, rfl⟩
  have hheld := (((adapters_released _ _ answers corpus).2.2.2 _ hworkers).2 rfl).2 (by decide)
  have hfirst : first.Callable := by decide
  have hlast : ¬nameless.Callable := by decide
  have htaken : run .default [first, nameless] corpus =
      .panicked (.threadName (threadName nameless.name)) :=
    runAnswered_eq_panicked rfl (by decide) (by simp [corpus]) (by simp [uncallable?, hfirst, hlast])
  exact ⟨(hreleased []).1 _ rfl, Prod.ext hsecond (hrefused _ rfl), Prod.ext hbroken (hpanicked rfl),
    hthird, by decide, hnameless, htaken, _, hworkers, hheld.1, rfl⟩

end WireParity.Parity
