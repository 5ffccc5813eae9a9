import WireParity.Proofs.Report.Counts
import WireParity.Proofs.Text.Lines
import WireParity.Report.Log
import Mathlib.Data.List.Basic

/-!
# The lines of a log

A log tells of vectors, of findings, of the run and of classes, each in a line: `Report.entries` is
what it tells of, in order. The lines are joined by line breaks, and nothing in them is escaped.
Most of what stands in a line is fixed or a numeral. The rest are texts that a report is handed:
names of cases, of types and of adapters, and within findings what was read or reported elsewhere.
The log has a line for each entry, and no others, exactly if none of these texts has a line break in
it.
-/

namespace WireParity

open Text (Unbroken)

/-- What a line of a log tells of. -/
inductive LogEntry
  | passing (result : VectorResult)
  | failing (result : VectorResult)
  | finding (f : Finding)
  | setting
  | totals
  | tally (name : String) (count : Nat)

/-- The names in a subject. -/
def Subject.names : Subject → List String
  | oracle => []
  | adapter name => [name]
  | pair first second => [first, second]

/-- The texts in what went wrong that are neither fixed nor numerals. -/
def Detail.texts : Detail → List String
  | bytes _ => []
  | value m => [m.path, m.expected, m.actual]
  | trailing _ _ => []
  | codec kind _ message => [kind, message]
  | failed _ _ message => [message]
  | timedOut _ _ _ => []

namespace LogEntry

/-- The result for the vector that is told of. -/
def vector? : LogEntry → Option VectorResult
  | passing result => some result
  | failing result => some result
  | _ => none

/-- The finding that is told of. -/
def finding? : LogEntry → Option Finding
  | finding f => some f
  | _ => none

/-- The class that is told of. -/
def className? : LogEntry → Option String
  | tally name _ => some name
  | _ => none

/-- The line for an entry in the log of a report. -/
def line (r : Report) : LogEntry → String
  | passing result => "PASS " ++ s!"{result.caseName} ({result.typeName})"
  | failing result => "FAIL " ++ s!"{result.caseName} ({result.typeName})"
  | finding f => "  " ++ f.text
  | setting => r.mode.name ++ " mode, adapters: " ++ ", ".intercalate r.adapters
  | totals => s!"{r.totalsText} in {Report.milliseconds r.elapsed}ms"
  | tally name count => (Report.classLine (name, count)).text

/-- The texts that stand in the line for an entry as they are. -/
def texts (r : Report) : LogEntry → List String
  | passing result => [result.caseName, result.typeName]
  | failing result => [result.caseName, result.typeName]
  | finding f => f.subject.names ++ f.detail.texts
  | setting => r.adapters
  | totals => []
  | tally _ _ => []

end LogEntry

namespace VectorResult

/-- What a log tells of a vector: that it fails, and each of its findings; or that it passes, if
that is asked for. -/
def entries (verbose : Bool) (result : VectorResult) : List LogEntry :=
  match result.findings with
  | [] => if verbose then [.passing result] else []
  | findings => .failing result :: findings.map .finding

end VectorResult

namespace Report

/-- What a summary tells of: the setting and the totals, and then each class. -/
def summaryEntries (r : Report) : List LogEntry :=
  [.setting, .totals] ++ r.counts.map fun entry => .tally entry.1 entry.2

/-- What a log tells of: the vectors in order, and then the summary. -/
def entries (r : Report) (verbose : Bool) : List LogEntry :=
  r.results.flatMap (VectorResult.entries verbose) ++ r.summaryEntries

/-- The lines for a vector are those for what is told of it. -/
theorem map_text_resultLines (r : Report) (verbose : Bool) (result : VectorResult) :
    (resultLines verbose result).map LogLine.text =
      (result.entries verbose).map (LogEntry.line r) := by
  obtain ⟨index, caseName, typeName, findings, elapsed⟩ := result
  cases findings with
  | nil => cases verbose <;> rfl
  | cons f rest =>
    simp only [resultLines, VectorResult.passed, VectorResult.entries, List.isEmpty_cons,
      Bool.false_eq_true, if_false, List.map_cons, List.map_map]
    rfl

/-- The lines of the summary are those for what it tells of. -/
theorem map_text_summaryLines (r : Report) :
    r.summaryLines.map LogLine.text = r.summaryEntries.map (LogEntry.line r) := by
  rw [summaryLines, summaryEntries, List.map_append, List.map_cons, List.map_cons, List.map_map,
    List.map_map]
  rfl

/-- A log is the lines for what it tells of, with line breaks between them. -/
theorem log_eq (r : Report) (verbose : Bool) :
    r.log verbose = "\n".intercalate ((r.entries verbose).map (LogEntry.line r)) := by
  rw [log, entries, List.map_append, List.map_append, map_text_summaryLines, vectorLines,
    List.map_flatMap, List.map_flatMap,
    List.flatMap_congr fun result _ => map_text_resultLines r verbose result]

end Report

/-- The text of a subject is broken where a name in it is. -/
theorem Subject.unbroken_text {s : Subject} :
    Unbroken s.text ↔ ∀ name ∈ s.names, Unbroken name := by
  cases s <;> simp (disch := decide) [text, names, Unbroken.iff_true]

/-- The text of a byte is unbroken. -/
@[simp] theorem Detail.unbroken_byteText (b : Option UInt8) : Unbroken (byteText b) := by
  cases b <;> simp (disch := decide) [byteText, Unbroken.iff_true]

/-- What is shown of a path is broken where the path is. -/
@[simp] theorem Path.unbroken_shown {path : String} : Unbroken (shown path) ↔ Unbroken path := by
  rw [shown]
  split
  · rename_i hroot
    simp (disch := decide) [hroot, Unbroken.iff_true]
  · rfl

/-- The text of what went wrong is broken where a text in it is. -/
theorem Detail.unbroken_text {d : Detail} : Unbroken d.text ↔ ∀ t ∈ d.texts, Unbroken t := by
  unfold text
  cases d with
  | bytes m =>
    have hlengths : Unbroken (if m.expectedLength = m.actualLength then ""
        else s!" (length {m.expectedLength} vs {m.actualLength})") := by
      split
      · decide
      · simp (disch := decide) [Unbroken.iff_true]
    refine iff_of_true (Text.unbroken_append.mpr ⟨?_, hlengths⟩) (List.forall_mem_nil _)
    simp (disch := decide) [Unbroken.iff_true]
  | _ => simp (disch := decide) [texts, Unbroken.iff_true, and_assoc]

/-- The name of a phase is unbroken. -/
@[simp] theorem Phase.unbroken_name (phase : Phase) : Unbroken phase.name := by
  cases phase <;> decide

/-- The name of a mode is unbroken. -/
@[simp] theorem Mode.unbroken_name (mode : Mode) : Unbroken mode.name := by
  cases mode <;> decide

/-- The text of a finding is broken where a name or a text in it is. -/
theorem Finding.unbroken_text {f : Finding} :
    Unbroken f.text ↔ ∀ t ∈ f.subject.names ++ f.detail.texts, Unbroken t := by
  rw [List.forall_mem_append, ← Subject.unbroken_text, ← Detail.unbroken_text]
  simp (disch := decide) [text, Unbroken.iff_true]

/-- The class of what went wrong is fixed, or is the kind that its text begins with. -/
theorem Detail.unbroken_className {d : Detail} (h : ∀ t ∈ d.texts, Unbroken t) :
    Unbroken d.className := by
  cases d with
  | codec kind path message => exact h kind List.mem_cons_self
  | _ => simp (disch := decide) [className, Unbroken.iff_true]

namespace LogEntry

variable {r : Report}

/-- A line is broken where a text in it is, or the name of a class. -/
theorem unbroken_line {e : LogEntry} :
    Unbroken (e.line r) ↔ (∀ t ∈ e.texts r, Unbroken t) ∧ ∀ name ∈ e.className?, Unbroken name := by
  cases e with
  | passing result => simp (disch := decide) [line, texts, className?, Unbroken.iff_true]
  | failing result => simp (disch := decide) [line, texts, className?, Unbroken.iff_true]
  | finding f =>
    simp (disch := decide) [line, texts, className?, Finding.unbroken_text, Unbroken.iff_true]
  | setting =>
    have hcomma : Unbroken ", " := by decide
    simp (disch := decide) [line, texts, className?, Text.unbroken_intercalate hcomma,
      Unbroken.iff_true]
  | totals =>
    simp (disch := decide) [line, texts, className?, Report.totalsText, Report.milliseconds,
      Unbroken.iff_true]
  | tally name count =>
    have hblanks (n : Nat) : Unbroken (String.ofList (List.replicate n ' ')) :=
      Text.unbroken_replicate n (by decide)
    simp (disch := decide) [line, texts, className?, Report.classLine, Report.padded, hblanks,
      Unbroken.iff_true]

end LogEntry

namespace VectorResult

variable {verbose : Bool}

/-- A vector is told of by itself, unless it passes and this is not asked for. -/
theorem filterMap_vector?_entries (result : VectorResult) :
    (result.entries verbose).filterMap LogEntry.vector? =
      if verbose || !result.passed then [result] else [] := by
  rw [entries, passed]
  cases result.findings with
  | nil => cases verbose <;> rfl
  | cons f rest => simp [LogEntry.vector?]

/-- All findings of a vector are told of. -/
theorem filterMap_finding?_entries (result : VectorResult) :
    (result.entries verbose).filterMap LogEntry.finding? = result.findings := by
  rw [entries]
  cases result.findings with
  | nil => cases verbose <;> rfl
  | cons f rest =>
    have hall : (rest.map LogEntry.finding).filterMap LogEntry.finding? = rest := by
      rw [List.filterMap_map]
      exact List.filterMap_some
    exact congrArg (f :: ·) hall

/-- No class is told of with a vector. -/
theorem filterMap_className?_entries (result : VectorResult) :
    (result.entries verbose).filterMap LogEntry.className? = [] := by
  rw [entries]
  cases result.findings with
  | nil => cases verbose <;> rfl
  | cons f rest =>
    refine List.filterMap_eq_nil_iff.mpr (List.forall_mem_cons.mpr ⟨rfl, ?_⟩)
    exact List.forall_mem_map.mpr fun _ _ => rfl

/-- A vector that is told of is one entry, and each of its findings is one. -/
theorem length_entries (result : VectorResult) :
    (result.entries verbose).length =
      (if verbose || !result.passed then 1 else 0) + result.findings.length := by
  rw [entries, passed]
  cases result.findings with
  | nil => cases verbose <;> rfl
  | cons f rest => simp [Nat.add_comm]

end VectorResult

namespace Report

variable (r : Report) (verbose : Bool)

/-- A summary tells only of the setting, the totals and classes. -/
theorem filterMap_summaryEntries {α : Type} (pick : LogEntry → Option α)
    (hsetting : pick .setting = none) (htotals : pick .totals = none)
    (htally : ∀ name count, pick (.tally name count) = none) :
    r.summaryEntries.filterMap pick = [] := by
  refine List.filterMap_eq_nil_iff.mpr
    (List.forall_mem_cons.mpr ⟨hsetting, List.forall_mem_cons.mpr ⟨htotals, ?_⟩⟩)
  exact List.forall_mem_map.mpr fun entry _ => htally entry.1 entry.2

/-- A log tells of the failing vectors in order, and of all others if that is asked for. -/
theorem filterMap_vector?_entries :
    (r.entries verbose).filterMap LogEntry.vector? =
      r.results.filter fun result => verbose || !result.passed := by
  have hsummary := r.filterMap_summaryEntries LogEntry.vector? rfl rfl fun _ _ => rfl
  rw [entries, List.filterMap_append, hsummary, List.append_nil, List.filterMap_flatMap]
  induction r.results with
  | nil => rfl
  | cons result rest ih =>
    rw [List.flatMap_cons, ih, VectorResult.filterMap_vector?_entries, List.filter_cons]
    split <;> rfl

/-- A log tells of all findings in order. -/
theorem filterMap_finding?_entries :
    (r.entries verbose).filterMap LogEntry.finding? = r.findings := by
  have hsummary := r.filterMap_summaryEntries LogEntry.finding? rfl rfl fun _ _ => rfl
  rw [entries, List.filterMap_append, hsummary, List.append_nil, List.filterMap_flatMap, findings]
  exact List.flatMap_congr fun result _ => result.filterMap_finding?_entries

/-- A log tells of the classes that are counted, in order. -/
theorem filterMap_className?_entries :
    (r.entries verbose).filterMap LogEntry.className? = Table.keys r.counts := by
  have hvectors : (r.results.flatMap (VectorResult.entries verbose)).filterMap
      LogEntry.className? = [] := by
    rw [List.filterMap_flatMap]
    exact List.flatMap_eq_nil_iff.mpr fun result _ => result.filterMap_className?_entries
  rw [entries, List.filterMap_append, hvectors, List.nil_append, Table.keys]
  exact List.filterMap_map.trans (congrFun List.filterMap_eq_map r.counts)

variable {r verbose}

/-- Counting names keeps a table in order. -/
theorem ordered_foldl_countOne {counts : Table Nat} (hordered : Table.Ordered counts)
    (names : List String) : Table.Ordered (names.foldl countOne counts) := by
  induction names generalizing counts with
  | nil => exact hordered
  | cons name rest ih => exact ih hordered.insert

/-- The names under which there are counts are those that were counted before or are counted now. -/
theorem mem_keys_foldl_countOne {counts : Table Nat} {names : List String} {name : String} :
    name ∈ Table.keys (names.foldl countOne counts) ↔ name ∈ Table.keys counts ∨ name ∈ names := by
  induction names generalizing counts with
  | nil => simp
  | cons other rest ih =>
    rw [List.foldl_cons, ih, countOne, Table.mem_keys_insert, List.mem_cons, or_assoc, or_left_comm]

variable (r)

/-- Each class is counted once. -/
theorem nodup_keys_counts : (Table.keys r.counts).Nodup := by
  have hempty : Table.Ordered ([] : Table Nat) := List.Pairwise.nil
  have hordered : Table.Ordered r.counts := ordered_foldl_countOne hempty _
  refine List.nodup_iff_pairwise_ne.mpr (hordered.imp fun {a b} hless hsame => ?_)
  exact String.lt_irrefl b (hsame ▸ hless)

/-- The classes that are counted are those of the findings. -/
theorem mem_keys_counts {name : String} :
    name ∈ Table.keys r.counts ↔ ∃ f ∈ r.findings, f.detail.className = name := by
  rw [counts, mem_keys_foldl_countOne, List.mem_map]
  exact or_iff_right List.not_mem_nil

/-- The vectors that are told of are the failing ones, and the passing ones if that is asked for. -/
theorem length_filter_results (verbose : Bool) :
    (r.results.filter fun result => verbose || !result.passed).length =
      r.failed + if verbose then r.passed else 0 := by
  have hsplit := r.results.length_eq_length_filter_add VectorResult.passed
  cases verbose with
  | true => simp [failed, total, passed, hsplit, Nat.add_comm]
  | false => simp [failed, total, passed, hsplit]

/-- A log tells of each failing vector, of each passing one if that is asked for, of each finding,
of two things about the run, and of each class. -/
theorem length_entries (verbose : Bool) :
    (r.entries verbose).length = r.failed + (if verbose then r.passed else 0) +
      r.findings.length + 2 + (Table.keys r.counts).length := by
  have hvectors (results : List VectorResult) :
      (results.flatMap (VectorResult.entries verbose)).length =
        (results.filter fun result => verbose || !result.passed).length +
          (results.flatMap VectorResult.findings).length := by
    induction results with
    | nil => rfl
    | cons result rest ih =>
      rw [List.flatMap_cons, List.length_append, ih, VectorResult.length_entries, List.filter_cons,
        List.flatMap_cons, List.length_append]
      split
      · rw [List.length_cons]
        omega
      · omega
  rw [entries, List.length_append, hvectors, length_filter_results, ← findings, summaryEntries,
    List.length_append, List.length_map, Table.keys, List.length_map]
  simp only [List.length_cons, List.length_nil]
  omega

/-- The texts that a report is handed and that a log shows as they are. -/
def texts (verbose : Bool) : List String := (r.entries verbose).flatMap (LogEntry.texts r)

/-- The texts in a finding are shown wherever it is told of. -/
theorem mem_texts_of_mem_findings {verbose : Bool} {f : Finding} (hf : f ∈ r.findings) {t : String}
    (ht : t ∈ f.subject.names ++ f.detail.texts) : t ∈ r.texts verbose := by
  rw [← r.filterMap_finding?_entries verbose, List.mem_filterMap] at hf
  obtain ⟨e, he, hfinding⟩ := hf
  cases e with
  | finding g =>
    cases hfinding
    exact List.mem_flatMap.mpr ⟨_, he, ht⟩
  | _ => cases hfinding

/-- All lines of a log are unbroken exactly if the texts in it are. -/
theorem unbroken_lines_iff (verbose : Bool) :
    (∀ line ∈ (r.entries verbose).map (LogEntry.line r), Unbroken line) ↔
      ∀ t ∈ r.texts verbose, Unbroken t := by
  rw [List.forall_mem_map]
  refine ⟨fun h t ht => ?_, fun h e he => LogEntry.unbroken_line.mpr ⟨fun t ht => ?_, ?_⟩⟩
  · obtain ⟨e, he, ht⟩ := List.mem_flatMap.mp ht
    exact (LogEntry.unbroken_line.mp (h e he)).1 t ht
  · exact h t (List.mem_flatMap.mpr ⟨e, he, ht⟩)
  · -- A class is that of a finding, and so its name is fixed or is shown with the finding.
    intro name hname
    have hkey : name ∈ (r.entries verbose).filterMap LogEntry.className? :=
      List.mem_filterMap.mpr ⟨e, he, hname⟩
    rw [filterMap_className?_entries, mem_keys_counts] at hkey
    obtain ⟨f, hf, rfl⟩ := hkey
    refine Detail.unbroken_className fun t ht => h t ?_
    exact r.mem_texts_of_mem_findings hf (List.mem_append_right _ ht)

/-- A log tells of something. -/
theorem map_line_entries_ne_nil (verbose : Bool) :
    (r.entries verbose).map (LogEntry.line r) ≠ [] := by
  rw [ne_eq, List.map_eq_nil_iff, entries, summaryEntries]
  simp

/-- A log is cut into the lines for what it tells of exactly if all texts in it are unbroken. -/
theorem splitOn_log_eq_lines_iff (verbose : Bool) :
    Text.splitOn '\n' (r.log verbose) = (r.entries verbose).map (LogEntry.line r) ↔
      ∀ t ∈ r.texts verbose, Unbroken t := by
  rw [log_eq, Text.splitOn_intercalate_eq_iff (r.map_line_entries_ne_nil verbose),
    unbroken_lines_iff]

/-- A log is cut into as many lines as there are things that it tells of exactly if all texts in it
are unbroken. -/
theorem length_splitOn_log_iff (verbose : Bool) :
    (Text.splitOn '\n' (r.log verbose)).length = (r.entries verbose).length ↔
      ∀ t ∈ r.texts verbose, Unbroken t := by
  have hlength := Text.length_splitOn_intercalate_eq_iff (r.map_line_entries_ne_nil verbose)
  rwa [List.length_map, ← log_eq, unbroken_lines_iff] at hlength

/-- Whatever a report is handed, its log tells of each failing vector and of all its findings, of
each passing one if that is asked for, of the setting and of the totals, and once of each class of
finding, in that order. Cut at line breaks, it has a line for each of these, and no others, exactly
if none of the texts that it shows as they are has a line break in it. -/
theorem splitOn_log_eq_iff (r : Report) (verbose : Bool) :
    (Text.splitOn '\n' (r.log verbose) = (r.entries verbose).map (LogEntry.line r) ↔
      ∀ t ∈ r.texts verbose, Unbroken t) ∧
    ((Text.splitOn '\n' (r.log verbose)).length = (r.entries verbose).length ↔
      ∀ t ∈ r.texts verbose, Unbroken t) ∧
    (r.entries verbose).length = r.failed + (if verbose then r.passed else 0) +
      r.findings.length + 2 + ((r.entries verbose).filterMap LogEntry.className?).length ∧
    (r.entries verbose).filterMap LogEntry.vector? =
      r.results.filter (fun result => verbose || !result.passed) ∧
    (r.entries verbose).filterMap LogEntry.finding? = r.findings ∧
    ((r.entries verbose).filterMap LogEntry.className?).Nodup ∧
    ∀ name, name ∈ (r.entries verbose).filterMap LogEntry.className? ↔
      ∃ f ∈ r.findings, f.detail.className = name := by
  rw [filterMap_vector?_entries, filterMap_finding?_entries, filterMap_className?_entries]
  exact ⟨r.splitOn_log_eq_lines_iff verbose, r.length_splitOn_log_iff verbose,
    r.length_entries verbose, rfl, rfl, r.nodup_keys_counts, fun name => r.mem_keys_counts⟩

end Report

namespace Parity

/-- Where the message of an adapter has a line break in it, the log of one failing vector and two
findings does not have a line for each of them, for the run, for the totals and for their class. -/
theorem length_splitOn_log_ne_failing :
    let corpus : Corpus := ⟨"", .unset, [], [Samples.vectorOfU16 "seven" 7]⟩
    ∃ report : Report, run .default [.failing "one" "no\ncodec"] corpus = .returned (.ok report) ∧
      report.failed = 1 ∧ report.passed = 0 ∧ report.findings.length = 2 ∧
      Table.keys report.counts = ["adapter-error"] ∧
      (Text.splitOn '\n' (report.log false)).length ≠ 1 + 2 + 2 + 1 := by
  intro corpus
  obtain ⟨report, hrun⟩ := (exists_report_iff .default [.failing "one" "no\ncodec"]
    (fun _ v a => a.answers v) corpus).mpr ⟨by decide, by decide, Or.inr (by decide)⟩
  let found (phase : Phase) : Finding :=
    ⟨phase, .adapter "one", .failed "one" "seven" "no\ncodec"⟩
  obtain ⟨r, hresults, hr⟩ : ∃ r, report.results = [r] ∧ r.findings = [found .encode, found .decode] :=
    List.map_eq_singleton_iff.mp (findings_of_results (results_of_runAnswered hrun).2)
  have hfindings : report.findings = [found .encode, found .decode] := by
    rw [Report.findings, hresults, List.flatMap_singleton, hr]
  have hkeys : Table.keys report.counts = ["adapter-error"] := by
    rw [Report.counts, hfindings]
    decide
  have hfailed : report.failed = 1 := by
    simp [Report.failed, Report.total, Report.passed, hresults, VectorResult.passed, hr]
  have hpassed : report.passed = 0 := by
    simp [Report.passed, hresults, VectorResult.passed, hr]
  have hcount : report.findings.length = 2 := by rw [hfindings]; rfl
  refine ⟨report, hrun, hfailed, hpassed, hcount, hkeys, fun hlength => ?_⟩
  have hentries : (report.entries false).length = 1 + 2 + 2 + 1 := by
    rw [Report.length_entries, hfailed, hcount, hkeys]
    rfl
  have hunbroken := (report.length_splitOn_log_iff false).mp (hlength.trans hentries.symm)
  have hmessage : "no\ncodec" ∈ report.texts false :=
    report.mem_texts_of_mem_findings (by rw [hfindings]; exact List.mem_cons_self)
      (List.mem_append_right _ List.mem_cons_self)
  exact absurd (hunbroken _ hmessage) (by decide)

end Parity

end WireParity
