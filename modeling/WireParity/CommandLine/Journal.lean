import WireParity.Corpus.Load
import WireParity.Json.Printer
import WireParity.Parity.Run

/-!
# The journal

What a command does is noted in a journal of events. An event has a level, the part of the program
that it comes from, fields, and a place: it happens outside of runs, in a run, or in one of the
workers that a run has set on.
-/

namespace WireParity.CommandLine

/-- How much an event matters. -/
inductive Level
  | error
  | warn
  | info
  | debug
  | trace
deriving Repr, DecidableEq

namespace Level

/-- Every level, the weightiest first. -/
def all : List Level := [error, warn, info, debug, trace]

/-- The name of a level. -/
def name : Level → String
  | error => "ERROR"
  | warn => "WARN"
  | info => "INFO"
  | debug => "DEBUG"
  | trace => "TRACE"

/-- How little an event of a level matters. -/
def rank (level : Level) : Nat := (all.idxOf? level).getD 0 + 1

end Level

/-- What a run is known by in the journal. -/
structure RunLabel where
  mode : Mode
  vectors : Nat
  adapters : List String
deriving Repr, DecidableEq

namespace RunLabel

/-- The name that all runs have. -/
def title : String := "parity_run"

/-- What is said of a run. -/
def fields (l : RunLabel) : List (String × Json) :=
  [("mode", .string l.mode.name), ("vectors", .nat l.vectors),
   ("adapters", .string (",".intercalate l.adapters))]

/-- A label as JSON. -/
def toJson (l : RunLabel) : Json := .ofMembers (("name", .string title) :: l.fields)

end RunLabel

/-- Where something happens: outside of runs, in a worker of a run, or in the run itself. -/
inductive Place
  | outside
  | worker (run : RunLabel)
  | inside (run : RunLabel)
deriving Repr, DecidableEq

namespace Place

/-- The run that a place belongs to. -/
def run? : Place → Option RunLabel
  | outside => none
  | worker run | inside run => some run

/-- The run that goes on at a place itself. -/
def surrounding? : Place → Option RunLabel
  | outside | worker _ => none
  | inside run => some run

end Place

/-- An event. -/
structure JournalEvent where
  level : Level
  origin : String
  message : String
  fields : List (String × Json)
  place : Place
deriving Repr

namespace JournalEvent

/-- Everything that is said of an event, its message included. -/
def facts (e : JournalEvent) : List (String × Json) := ("message", .string e.message) :: e.fields

/-- An event as JSON. -/
def toJson (e : JournalEvent) : Json :=
  .ofMembers ([("level", .string e.level.name), ("target", .string e.origin),
    ("fields", .ofMembers e.facts)] ++ (e.place.run?.map fun l => ("span", l.toJson)).toList)

end JournalEvent

/-- Where the events of the program itself come from. -/
def programOrigin : String := "codec_parity"

/-- Where the events of loading come from. -/
def corpusOrigin : String := "codec_parity::corpus"

/-- Where the events of running come from. -/
def runOrigin : String := "codec_parity::harness"

/-- An event outside of a run. -/
def plainEvent (level : Level) (origin message : String) (fields : List (String × Json)) :
    JournalEvent := ⟨level, origin, message, fields, .outside⟩

/-- The events of loading a corpus: each manifest, and at the end the whole. -/
def loadEvents (manifests : List ManifestFile) (result : Except RunError Corpus) :
    List JournalEvent :=
  manifests.map (fun file => plainEvent .debug corpusOrigin "read manifest"
    [("manifest", .string file.path), ("vectors", .nat file.manifest.vectors.length)]) ++
  match result with
  | .ok c => [plainEvent .info corpusOrigin "loaded corpus"
      [("root", .string c.root), ("manifests", .nat manifests.length),
       ("types", .nat c.types.length), ("vectors", .nat c.vectors.length),
       ("bytes", .nat ((c.vectors.map fun v => v.bytes.length).foldl (· + ·) 0))]]
  | .error _ => []

/-- The event of a failed adapter call, if a finding is about one. -/
def callEvent? (place : Place) (f : Finding) : Option JournalEvent :=
  let event (message adapter caseName : String) (more : List (String × Json)) : JournalEvent :=
    ⟨.warn, runOrigin, message, [("adapter", .string adapter), ("case", .string caseName),
      ("phase", .string f.phase.name)] ++ more, place⟩
  match f.detail with
  | .failed adapter caseName message =>
    some (event "adapter call failed" adapter caseName [("error", .string message)])
  | .timedOut adapter caseName _ => some (event "adapter call timed out" adapter caseName [])
  | _ => none

/-- The events of evaluating one vector. A worker names its run only when it is done with one. -/
def vectorEvents (place : Place) (r : VectorResult) : List JournalEvent :=
  let callPlace : Place := match place with
    | .worker _ => .outside
    | other => other
  r.findings.filterMap (callEvent? callPlace) ++
    [⟨.debug, runOrigin, "evaluated vector", [("case", .string r.caseName), ("index", .nat r.index),
      ("findings", .nat r.findings.length)], place⟩]

/-- The events of a run. It sets on workers if it is told how many, or has more than one vector. -/
def runEvents (jobs : Option Nat) (r : Report) : List JournalEvent :=
  let label : RunLabel := ⟨r.mode, r.total, r.adapters⟩
  let place : Place := if jobs.isNone ∧ r.total ≤ 1 then .inside label else .worker label
  r.results.flatMap (vectorEvents place) ++
    [⟨.info, runOrigin, "parity run finished", [("passed", .nat r.passed), ("failed", .nat r.failed),
      ("findings", .nat r.findings.length)], .inside label⟩]

end WireParity.CommandLine
