import WireParity.Parity.Config
import WireParity.Parity.Finding
import WireParity.Table

/-!
# Reports

A report has one result for every vector, in corpus order, each with its findings. Durations are
whole microseconds.
-/

namespace WireParity

/-- What was found out about one vector. -/
structure VectorResult where
  index : Nat
  caseName : String
  typeName : String
  findings : List Finding
  elapsed : Nat
deriving Repr

/-- The vector has no findings. -/
def VectorResult.passed (r : VectorResult) : Bool := r.findings.isEmpty

/-- The outcome of a run. -/
structure Report where
  mode : Mode
  adapters : List String
  results : List VectorResult
  elapsed : Nat
deriving Repr

namespace Report

/-- The exit code when every vector passed. -/
def exitSuccess : Nat := 0

/-- The exit code when there are findings. -/
def exitFindings : Nat := 1

/-- The exit code when there was no run. -/
def exitFatal : Nat := 2

/-- Every vector passed. -/
def success (r : Report) : Bool := r.results.all VectorResult.passed

/-- The exit code of a report. -/
def exitCode (r : Report) : Nat := if r.success then exitSuccess else exitFindings

/-- How many vectors there are. -/
def total (r : Report) : Nat := r.results.length

/-- How many vectors passed. -/
def passed (r : Report) : Nat := (r.results.filter VectorResult.passed).length

/-- How many vectors have findings. -/
def failed (r : Report) : Nat := r.total - r.passed

/-- All findings in order. -/
def findings (r : Report) : List Finding := r.results.flatMap VectorResult.findings

/-- Counts one more under a name. -/
def countOne (counts : Table Nat) (name : String) : Table Nat :=
  Table.insert name ((Table.find? name counts).getD 0 + 1) counts

/-- How many findings there are of each class. -/
def counts (r : Report) : Table Nat :=
  (r.findings.map fun f => f.detail.className).foldl countOne []

/-- The result for a case name. -/
def result? (r : Report) (caseName : String) : Option VectorResult :=
  r.results.find? fun result => result.caseName == caseName

end Report

end WireParity
