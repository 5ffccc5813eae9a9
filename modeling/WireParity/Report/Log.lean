import WireParity.Number.DecimalText
import WireParity.Parity.Report

/-!
# The report as a log

First the vectors, each failing one with its findings; passing ones are listed only on request. Then
the summary: what was run, the totals, and a line for each class of finding.
-/

namespace WireParity

/-- What a line is about. -/
inductive LineKind
  | pass
  | fail
  | finding
  | summary
deriving Repr, DecidableEq

/-- A line of the log. -/
structure LogLine where
  kind : LineKind
  text : String
deriving Repr, DecidableEq

namespace Report

/-- The lines for one vector. -/
def resultLines (verbose : Bool) (r : VectorResult) : List LogLine :=
  let header := s!"{r.caseName} ({r.typeName})"
  if r.passed then if verbose then [⟨.pass, "PASS " ++ header⟩] else []
  else ⟨.fail, "FAIL " ++ header⟩ :: r.findings.map fun f => ⟨.finding, "  " ++ f.text⟩

/-- The lines for all vectors. -/
def vectorLines (r : Report) (verbose : Bool) : List LogLine :=
  r.results.flatMap (resultLines verbose)

/-- Microseconds as milliseconds with one place. The seconds are first made a double, as the sum of
whole seconds and a fraction, and the double times a thousand is rounded. -/
def milliseconds (elapsed : Nat) : String :=
  let f := FloatFormat.binary64
  let whole := f.nearest (elapsed / 1000000) 1
  let fraction := f.nearest (elapsed % 1000000 * 1000) 1000000000
  let seconds := f.nearestUnits (f.units whole + f.units fraction) 1
  let thousandfold := f.nearestUnits (f.units seconds * 1000) 1
  fixedPlaces 1 (f.units thousandfold) (Nat.pow 2 f.scale)

/-- A text filled up with blanks to a width. -/
def padded (width : Nat) (text : String) : String :=
  text ++ String.ofList (List.replicate (width - text.length) ' ')

/-- The line of a class. -/
def classLine (entry : String × Nat) : LogLine :=
  ⟨.summary, s!"  {padded 24 entry.1} {entry.2}"⟩

/-- The totals. -/
def totalsText (r : Report) : String :=
  s!"{r.total} vectors: {r.passed} passed, {r.failed} failed ({r.findings.length} findings)"

/-- The summary. -/
def summaryLines (r : Report) : List LogLine :=
  ⟨.summary, r.mode.name ++ " mode, adapters: " ++ ", ".intercalate r.adapters⟩ ::
  ⟨.summary, s!"{r.totalsText} in {milliseconds r.elapsed}ms"⟩ ::
  r.counts.map classLine

/-- The whole log as one text. -/
def log (r : Report) (verbose : Bool) : String :=
  "\n".intercalate ((r.vectorLines verbose ++ r.summaryLines).map LogLine.text)

end Report

end WireParity
