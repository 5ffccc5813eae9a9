import WireParity.Parity.Report

/-!
# The report as a document

The document has the totals, the counts by class, and every finding in full. Its keys stand in a
fixed order.
-/

namespace WireParity

/-- The version that documents carry. -/
def documentVersion : String := "0.3.0"

namespace Document

/-- A natural number. -/
def nat (n : Nat) : WrittenJson := .number (.int n)

/-- A text. -/
def text (s : String) : WrittenJson := .string s

/-- A byte, or null. -/
def byte (b : Option UInt8) : WrittenJson := b.elim .null fun b => nat b.toNat

/-- A byte mismatch. -/
def byteMismatch (m : ByteMismatch) : List (String × WrittenJson) :=
  [("offset", nat m.offset), ("expected_byte", byte m.expectedByte),
   ("actual_byte", byte m.actualByte), ("expected_len", nat m.expectedLength),
   ("actual_len", nat m.actualLength), ("expected_hex", text m.expectedHex),
   ("actual_hex", text m.actualHex)]

/-- A value mismatch. -/
def valueMismatch (m : ValueMismatch) : List (String × WrittenJson) :=
  [("path", text m.path), ("expected", text m.expected), ("actual", text m.actual),
   ("expected_json", m.expectedJson.written), ("actual_json", m.actualJson.written)]

/-- The class under which a document lists a detail, and its own members. -/
def detail : Detail → String × List (String × WrittenJson)
  | .bytes m => ("byte-mismatch", byteMismatch m)
  | .value m => ("value-mismatch", valueMismatch m)
  | .trailing consumed total =>
    ("trailing-bytes", [("consumed", nat consumed), ("total", nat total)])
  | .codec kind path message =>
    ("codec", [("kind", text kind), ("path", text path), ("message", text message)])
  | .failed adapter caseName message =>
    ("adapter-error",
      [("ecosystem", text adapter), ("case_name", text caseName), ("message", text message)])
  | .timedOut adapter caseName ms =>
    ("adapter-timeout",
      [("ecosystem", text adapter), ("case_name", text caseName), ("timeout_ms", nat ms)])

/-- A finding. -/
def finding (f : Finding) : WrittenJson :=
  .object ([("phase", text f.phase.name), ("subject", text f.subject.text),
    ("class", text (detail f.detail).1)] ++ (detail f.detail).2)

/-- The result for a vector. -/
def result (r : VectorResult) : WrittenJson :=
  .object [("index", nat r.index), ("case_name", text r.caseName), ("type_name", text r.typeName),
    ("passed", .bool r.passed), ("duration_us", nat r.elapsed),
    ("findings", .array (r.findings.map finding))]

end Document

namespace Report

/-- The document of a report. -/
def document (r : Report) : WrittenJson :=
  .object [("harness_version", .string documentVersion), ("mode", .string r.mode.name),
    ("adapters", .array (r.adapters.map .string)), ("success", .bool r.success),
    ("total", Document.nat r.total), ("passed", Document.nat r.passed),
    ("failed", Document.nat r.failed), ("findings", Document.nat r.findings.length),
    ("counts", .object (r.counts.map fun entry => (entry.1, Document.nat entry.2))),
    ("duration_ms", Document.nat (r.elapsed / 1000)),
    ("results", .array (r.results.map Document.result))]

end Report

end WireParity
