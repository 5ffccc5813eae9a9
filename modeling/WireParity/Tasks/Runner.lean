import WireParity.Tasks.Contracts
import WireParity.Text.Quoted

/-!
# Upkeep tasks

Tasks check a source tree with a build tool: its contracts, its tests, its sample corpus and its
proofs. A task prints what it is about to do and stops at the first thing that fails. The tool is
known only by the exit code that it gives for its arguments, or it is missing.
-/

namespace WireParity.Tasks

/-- What a task works with: files, the directory of the task runner, and the build tool. -/
structure Workplace where
  tree : FileTree
  runnerDirectory : String
  tool : Option (List String → Nat)

/-- A call of the build tool, in a directory. -/
structure ToolCall where
  directory : List String
  arguments : List String
deriving Repr, DecidableEq

/-- What a task has done so far: the lines it printed, and the calls that it made. -/
structure TaskLog where
  lines : List String
  calls : List ToolCall
deriving Repr, DecidableEq

/-- Why a task fails. -/
inductive TaskFailure
  | toolNotRun (arguments : List String) (error : FileError)
  | toolFailed (arguments : List String)
  | proofsNotRun (error : FileError)
  | proofsFailed
  | noCorpus (path : String)
  | contractsUnreadable (error : FileError)
  | noContracts
  | sourcesUnreadable (error : FileError)
  | uncalledContracts (names : List String)
deriving Repr, DecidableEq

namespace TaskFailure

/-- What failed. -/
def message : TaskFailure → String
  | toolNotRun arguments _ => "Failed to run cargo " ++ Text.quotedList arguments
  | toolFailed arguments => "cargo " ++ Text.quotedList arguments ++ " failed"
  | proofsNotRun _ => "Failed to run cargo kani"
  | proofsFailed => "Kani proofs failed"
  | noCorpus path => s!"no sample corpus at {path}"
  | contractsUnreadable _ => "Failed to read contracts.rs"
  | noContracts => "contracts.rs lists no contracts; the invariants table is gone"
  | sourcesUnreadable _ => "Failed to read sources"
  | uncalledContracts names => "contracts with no call site: " ++ Text.quotedList names

/-- Why it failed, where the system says so. -/
def cause? : TaskFailure → Option String
  | toolNotRun _ error | proofsNotRun error | contractsUnreadable error
  | sourcesUnreadable error => some error.message
  | _ => none

/-- The whole text of a failure. -/
def text (f : TaskFailure) : String :=
  "Error: " ++ f.message ++ match f.cause? with
    | some cause => "\n\nCaused by:\n    " ++ cause
    | none => ""

end TaskFailure

/-- A task: it reads its workplace, adds to its log, and may fail. -/
abbrev Task (α : Type) := ReaderT Workplace (ExceptT TaskFailure (StateM TaskLog)) α

/-- Prints a line. -/
def print (line : String) : Task Unit := modify fun log => { log with lines := log.lines ++ [line] }

/-- Prints lines. -/
def printAll : List String → Task Unit
  | [] => pure ()
  | line :: rest => do
    print line
    printAll rest

namespace Workplace

/-- The directory of the project, in which that of the task runner lies. -/
def root (w : Workplace) : String := (Files.parent? w.runnerDirectory).getD w.runnerDirectory

end Workplace

/-- Runs the tool in a directory: its exit code, or why it does not start. -/
def runTool (directory : String) (arguments : List String) : Task (Except FileError Nat) := do
  let w ← read
  match w.tree.workingDirectory directory, w.tool with
  | .error e, _ => return .error e
  | .ok _, none => return .error .notFound
  | .ok names, some tool =>
    modify fun log => { log with calls := log.calls ++ [⟨names, arguments⟩] }
    return .ok (tool arguments)

/-- Runs the tool on the project, which has to go well. -/
def build (arguments : List String) : Task Unit := do
  match ← runTool (← read).root arguments with
  | .error e => throw (.toolNotRun arguments e)
  | .ok code => if code = 0 then pure () else throw (.toolFailed arguments)

/-- Runs all tests, with and without the optional features. -/
def test : Task Unit := do
  build ["test", "--quiet"]
  build ["test", "--quiet", "--no-default-features"]

/-- Runs the sample corpus against the reference codec. -/
def corpus : Task Unit := do
  let w ← read
  let directory := Files.join w.root "data/corpus"
  if w.tree.leadsSomewhere (Files.join directory "corpus.json") then
    build ["run", "--quiet", "--", "run", directory, "--reference", "--roundtrip"]
  else throw (.noCorpus directory)

/-- Runs the proofs, if the tool for them is there. That is found out in the working directory. -/
def proofs : Task Unit := do
  match ← runTool "." ["kani", "--version"] with
  | .ok 0 =>
    match ← runTool (Files.join (← read).root "kani-proofs") ["kani"] with
    | .error e => throw (.proofsNotRun e)
    | .ok code => if code = 0 then pure () else throw .proofsFailed
  | _ => print "  (cargo-kani not installed, skipping)"

/-- Checks that every contract is called. -/
def contracts : Task Unit := do
  let w ← read
  let directory := Files.join w.root "src"
  match w.tree.readText (Files.join directory contractsName) with
  | .error e => throw (.contractsUnreadable e)
  | .ok table =>
    let names := contractNames table
    if names.isEmpty then throw .noContracts
    match (callers w.tree directory).mapM fun entry => Utf8.text? entry.2 with
    | none => throw (.sourcesUnreadable .notUtf8)
    | some texts =>
      let missing := uncalled names texts
      if missing.isEmpty then pure () else throw (.uncalledContracts missing)

/-- The line around a heading. -/
def rule : String := "=========================================="

/-- Does everything. -/
def verify : Task Unit := do
  printAll [rule, "codec-parity Verification Suite", rule, "",
    "[1/5] Checking runtime contracts are wired in..."]
  contracts
  printAll ["✓ Every contract has a call site", "", "[2/5] Running Rust tests..."]
  test
  printAll ["✓ All Rust tests passed", "", "[3/5] Running clippy..."]
  build ["clippy", "--quiet", "--all-targets", "--", "-D", "warnings"]
  printAll ["✓ Clippy passed", "", "[4/5] Checking the sample corpus..."]
  corpus
  printAll ["✓ Sample corpus matches the reference codec", "", "[5/5] Running Kani proofs..."]
  proofs
  printAll ["✓ Kani proofs done", "", rule, "✓ ALL VERIFICATION CHECKS PASSED", rule]

/-- Does what is quickly done. -/
def check : Task Unit := do
  printAll ["Running quick checks...", "", "[1/3] cargo check..."]
  build ["check", "--all-targets"]
  print "[2/3] cargo test..."
  build ["test", "--quiet"]
  print "[3/3] cargo clippy..."
  build ["clippy", "--quiet", "--", "-D", "warnings"]
  printAll ["", "✓ Quick checks passed"]

/-- A task by its name. -/
def task? : String → Option (Task Unit)
  | "verify" => some verify
  | "test" => some test
  | "corpus" => some corpus
  | "kani" => some proofs
  | "check" => some check
  | "bench" => some (build ["bench"])
  | _ => none

/-- The lines that tell which tasks there are. -/
def usageLines : List String :=
  ["", "cargo xtask <COMMAND>", "", "Commands:",
   "  verify    Run full verification suite (contracts + tests + clippy + corpus + Kani)",
   "  test      Run all Rust tests, with and without the parallel feature",
   "  corpus    Run the sample corpus through the reference adapter",
   "  kani      Run the Kani proofs only",
   "  check     Quick check (cargo test + clippy, no Kani)",
   "  bench     Run benchmarks", ""]

/-- What came of a request for a task. -/
structure TaskOutcome where
  exitCode : Nat
  lines : List String
  errors : List String
  calls : List ToolCall
deriving Repr, DecidableEq

/-- Does what the first argument asks for. -/
def perform (w : Workplace) (arguments : List String) : TaskOutcome :=
  match arguments.head?.bind task? with
  | none => ⟨0, [], usageLines, []⟩
  | some task =>
    match (task.run w).run.run ⟨[], []⟩ with
    | (.ok (), log) => ⟨0, log.lines, [], log.calls⟩
    | (.error f, log) => ⟨1, log.lines, [f.text], log.calls⟩

end WireParity.Tasks
