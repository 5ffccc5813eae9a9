import WireParity.CommandLine.Arguments
import WireParity.CommandLine.Journal
import WireParity.External.Exchange
import WireParity.External.Spec
import WireParity.Report.Document
import WireParity.Report.Log
import WireParity.Script.Programs
import WireParity.Shape.Outline
import WireParity.Terminal.Box

/-!
# What the commands do

A command is a function of the files and its options. It comes to an exit code, the lines that it
prints, what it says on the side, and the files afterwards.
-/

namespace WireParity.CommandLine

/-- What is said on the side: a line, or an event for the journal. -/
inductive Notice
  | line (text : String)
  | event (e : JournalEvent)
deriving Repr

/-- What a command comes to. -/
structure Outcome where
  exitCode : Nat
  lines : List String
  notices : List Notice
  tree : FileTree

/-- Why a command does not get done. -/
inductive Failure
  | run (error : RunError)
  | unknownType (name : String) (known : List String)
  | layout (name : String) (error : CodecError)
  | unreadable (path : String) (error : FileError)
  | undecodable (path type : String) (error : CodecError)
  | nothingConsumed (type : String)
  | unwritable (path : String) (error : FileError)
deriving Repr, DecidableEq

namespace Failure

/-- What failed. -/
def context : Failure → String
  | run error => error.message
  | unknownType name known =>
    s!"unknown type '{name}' (corpus declares: " ++ ", ".intercalate known ++ ")"
  | layout name _ => s!"layout of '{name}'"
  | unreadable path _ => s!"cannot read {path}"
  | undecodable path type _ => s!"decoding {path} as '{type}'"
  | nothingConsumed type => s!"'{type}' consumed no bytes"
  | unwritable path _ => s!"cannot write report to {path}"

/-- Why it failed, where there is more to say. -/
def cause? : Failure → Option String
  | run _ | unknownType _ _ | nothingConsumed _ => none
  | layout _ error | undecodable _ _ error => some error.message
  | unreadable _ error | unwritable _ error => some error.message

/-- The wording of a failure. -/
def message (f : Failure) : String :=
  match f.cause? with
  | some cause => f.context ++ ": " ++ cause
  | none => f.context

/-- The line that tells of a failure. -/
def line (theme : Option Terminal.Theme) (f : Failure) : String :=
  Terminal.painted theme Terminal.bold .red "error:" ++ " " ++ f.message

end Failure

/-- The exit code of a program that comes to a panic. -/
def panicExitCode : Nat := 101

/-- A command that has failed, after what it has said. -/
def failed (theme : Option Terminal.Theme) (tree : FileTree) (lines : List String)
    (notices : List Notice) (f : Failure) : Outcome where
  exitCode := Report.exitFatal
  lines
  notices := notices ++ [.line (f.line theme)]
  tree

/-- A corpus, and the notices of loading it. -/
def loadCorpus (tree : FileTree) (path : String) : List Notice × Except Failure Corpus :=
  let (manifests, result) := Corpus.loadFrom tree path
  ((loadEvents manifests result).map .event, match result with
    | .ok c => .ok c
    | .error e => .error (.run e))

namespace RunOptions

/-- The adapters that are asked for, with a limit on the time of a call. -/
def adapterList (o : RunOptions) (tree : FileTree) (timeout : Duration) :
    Except ConfigFault (List Adapter) := do
  let specs ← o.adapters.mapM AdapterSpec.parse
  let external := specs.map fun spec => ExternalCodec.adapter {
    name := spec.name
    program := spec.program
    act := fun input => (Script.start tree none spec.program spec.arguments input).map Prod.fst
    deadline := some timeout }
  return external ++ if o.reference then [.reference Adapter.referenceName] else []

end RunOptions

/-- The colour of a line of a report. -/
def paintedLine (theme : Option Terminal.Theme) (l : LogLine) : String :=
  match l.kind with
  | .pass => Terminal.painted theme "" .green l.text
  | .fail => Terminal.painted theme Terminal.bold .red l.text
  | .finding => Terminal.painted theme "" .yellow l.text
  | .summary => Terminal.painted theme "" .cyan l.text

/-- The verdict on a run. -/
def verdict (theme : Option Terminal.Theme) (success : Bool) : String :=
  if success then Terminal.painted theme Terminal.bold .green "PASS"
  else Terminal.painted theme Terminal.bold .red "FAIL"

/-- The lines of a report. A blank line comes before the summary if anything does. -/
def reportLines (theme : Option Terminal.Theme) (r : Report) (verbose : Bool) : List String :=
  (r.vectorLines verbose).map (paintedLine theme) ++
    (if !r.results.isEmpty ∧ (verbose ∨ !r.success) then [""] else []) ++
    r.summaryLines.map (paintedLine theme) ++ [verdict theme r.success]

/-- Writes the document of a report into a file, whose directory is made if it is missing. The
directory stays even where the file cannot be written. -/
def writeDocument (tree : FileTree) (path : String) (r : Report) :
    FileTree × Option FileError :=
  match tree.makeDirectories ((Files.parent? path).getD "") with
  | .error e => (tree, some e)
  | .ok made =>
    match made.write path (Utf8.encode r.document.pretty) with
    | .error e => (made, some e)
    | .ok written => (written, none)

/-- The event of starting a run. -/
def startEvent (o : RunOptions) (c : Corpus) : JournalEvent :=
  plainEvent .info programOrigin "starting parity run"
    [("corpus", .string o.corpus), ("vectors", .nat c.vectors.length)]

/-- Prints a report, and writes its document if there is a file for it. -/
def showReport (theme : Option Terminal.Theme) (tree : FileTree) (verbose : Bool) (o : RunOptions)
    (notices : List Notice) (r : Report) : Outcome :=
  let lines := reportLines theme r verbose
  match o.output with
  | none => ⟨r.exitCode, lines, notices, tree⟩
  | some path =>
    match writeDocument tree path r with
    | (tree, some e) => failed theme tree lines notices (.unwritable path e)
    | (tree, none) =>
      let event := plainEvent .info programOrigin "wrote JSON report" [("path", .string path)]
      ⟨r.exitCode, lines, notices ++ [.event event], tree⟩

/-- Runs a corpus. -/
def runCorpus (theme : Option Terminal.Theme) (tree : FileTree) (verbose : Bool)
    (o : RunOptions) : Outcome :=
  let (notices, loaded) := loadCorpus tree o.corpus
  match loaded with
  | .error f => failed theme tree [] notices f
  | .ok c =>
    let c := match o.start with
      | some start => c.filter start
      | none => c
    match (o.config c.settings).bind fun config =>
        (o.adapterList tree config.timeout).map fun adapters => (config, adapters) with
    | .error fault => failed theme tree [] notices (.run (.config fault))
    | .ok (config, adapters) =>
      let notices := notices ++ [.event (startEvent o c)]
      match Parity.run config adapters c with
      | .panicked panic =>
        { exitCode := panicExitCode, lines := [], notices := notices ++ [.line panic.message], tree }
      | .returned (.error e) => failed theme tree [] notices (.run e)
      | .returned (.ok r) => showReport theme tree verbose o (notices ++ (runEvents config.jobs r).map .event) r

/-- The columns of a layout table. -/
def tableRow (path offset size type : String) : String :=
  Terminal.padRight 32 path ++ "  " ++ Terminal.padLeft 6 offset ++ "  " ++
    Terminal.padLeft 6 size ++ "  " ++ type

/-- A row of a layout table. Parts are indented under what they are part of. -/
def outlineLine (theme : Option Terminal.Theme) (row : OutlineRow) : String :=
  tableRow (Terminal.run (2 * row.depth) ' ' ++ Path.shown row.path) (toString row.offset)
    (toString row.size) (Terminal.painted theme Terminal.dim .magenta row.type)

/-- The layout of a type in a box. -/
def layoutBox (theme : Option Terminal.Theme) (s : Selections) (name : String) (shape : Shape) :
    Except Failure (List String) :=
  match shape.outline s with
  | .error e => .error (.layout name e)
  | .ok rows => .ok (Terminal.box theme s!"{name} ({shape.text})"
      (Terminal.painted theme "" .gray (tableRow "path" "offset" "size" "type") ::
        rows.map (outlineLine theme)))

/-- The box of a type, or one that tells why it has no layout, with a notice about that. -/
def layoutOrReason (theme : Option Terminal.Theme) (s : Selections) (entry : String × Shape) :
    List String × List Notice :=
  match layoutBox theme s entry.1 entry.2 with
  | .ok lines => (lines, [])
  | .error f =>
    (Terminal.box theme entry.1 [Terminal.painted theme "" .yellow f.message],
      [.event (plainEvent .warn programOrigin "cannot lay out type"
        [("type_name", .string entry.1), ("error", .string f.context)])])

/-- The shape of a type that a corpus declares, or of a kind of scalar. -/
def findType (c : Corpus) (name : String) : Except Failure Shape :=
  match c.typeNamed? name with
  | some shape => .ok shape
  | none => .error (.unknownType name (Table.keys c.types))

/-- Shows the layout of one type or of all. -/
def showLayout (theme : Option Terminal.Theme) (tree : FileTree) (o : LayoutOptions) : Outcome :=
  let (notices, loaded) := loadCorpus tree o.corpus
  let s := selections o.choices
  match loaded with
  | .error f => failed theme tree [] notices f
  | .ok c =>
    match o.type with
    | some name =>
      match (findType c name).bind (layoutBox theme s name) with
      | .ok lines => ⟨Report.exitSuccess, lines, notices, tree⟩
      | .error f => failed theme tree [] notices f
    | none =>
      if c.types.isEmpty then ⟨Report.exitSuccess, ["corpus declares no types"], notices, tree⟩
      else
        let shown := c.types.map (layoutOrReason theme s)
        ⟨Report.exitSuccess, shown.flatMap Prod.fst, notices ++ shown.flatMap Prod.snd, tree⟩

/-- The line about bytes that were left over. -/
def trailingLine (theme : Option Terminal.Theme) (total consumed : Nat) : String :=
  Terminal.painted theme "" .yellow
    s!"{total - consumed} trailing bytes after {consumed} consumed"

/-- What a file decodes to, and the lines about it on the side. -/
def decodeFile (theme : Option Terminal.Theme) (tree : FileTree) (o : DecodeOptions) (c : Corpus) :
    Except Failure (Json × List Notice) := do
  let shape ← findType c o.type
  let s := selections o.choices
  let bytes ← match tree.read o.file with
    | .ok bytes => .ok bytes
    | .error e => .error (.unreadable o.file e)
  let (value, consumed) ← match shape.decodeFront bytes s with
    | .ok result => .ok result
    | .error e => .error (.undecodable o.file o.type e)
  if consumed = 0 ∧ !bytes.isEmpty then .error (.nothingConsumed o.type)
  else
    let notices :=
      if consumed < bytes.length then [Notice.line (trailingLine theme bytes.length consumed)]
      else []
    return (shape.jsonOfValue value s, notices)

/-- Decodes a file. -/
def decodeBlob (theme : Option Terminal.Theme) (tree : FileTree) (o : DecodeOptions) : Outcome :=
  let (notices, loaded) := loadCorpus tree o.corpus
  match loaded.bind (decodeFile theme tree o) with
  | .error f => failed theme tree [] notices f
  | .ok (json, more) => ⟨Report.exitSuccess, [json.pretty], notices ++ more, tree⟩

/-- Does what an invocation says. -/
def Invocation.perform (theme : Option Terminal.Theme) (tree : FileTree) (i : Invocation) :
    Outcome :=
  match i.action with
  | .run o => runCorpus theme tree i.verbose o
  | .layout o => showLayout theme tree o
  | .decode o => decodeBlob theme tree o

/-- The line that tells which program this is. -/
def versionLine : String := "codec-parity " ++ documentVersion

/-- The lines that tell how the program is used. -/
def usageLines : List String :=
  ["Usage: codec-parity [-v] [--log-json] COMMAND",
   "  run CORPUS [--parity | --mode MODE] [-a NAME=CMD]... [--reference] [--timeout-ms MS]",
   "      [-j JOBS] [--roundtrip] [--filter PREFIX] [-o FILE]",
   "  layout CORPUS [TYPE] [--variant PATH=NAME]...",
   "  decode CORPUS TYPE FILE [--variant PATH=NAME]..."]

end WireParity.CommandLine
