import WireParity.CommandLine.Actions
import WireParity.CommandLine.JournalFilter

/-!
# The program

The outermost layer: it reads the files below the working directory, hands them with the arguments
to the commands, prints what these say, and writes the files that they have changed.
-/

namespace WireParity.Program

/-- How deep directories are followed, which ends the walk where links lead back up. -/
def maxDirectoryDepth : Nat := 32

/-- The files below the directory at some names, as far as they can be read. -/
def filesIn (names : List String) : Nat → IO (List (List String × Bytes))
  | 0 => return []
  | depth + 1 => do
    let directory := names.foldl (fun directory (name : String) => directory / name) (← IO.currentDir)
    let mut found := []
    for entry in ← directory.readDir do
      let at_ := names ++ [entry.fileName]
      if ← entry.path.isDir then
        found := found ++ (← filesIn at_ depth)
      else
        match ← (IO.FS.readBinFile entry.path).toBaseIO with
        | .ok content => found := (at_, content.data.toList) :: found
        | .error _ => pure ()
    return found

/-- Writes the files of a tree that another one does not have. -/
def writeChanges (before after : FileTree) : IO Unit := do
  let root ← IO.currentDir
  for names in after.directories do
    IO.FS.createDirAll (names.foldl (fun directory (name : String) => directory / name) root)
  for (names, content) in after.files do
    if before.contentAt? names ≠ some content then
      IO.FS.writeBinFile (names.foldl (fun directory (name : String) => directory / name) root)
        ⟨content.toArray⟩

/-- A field of an event in one line. -/
def fieldText (field : String × Json) : String :=
  field.1 ++ "=" ++ match field.2 with
    | .string s => s
    | other => other.compact

/-- The line of an event. -/
def eventLine (structured : Bool) (e : CommandLine.JournalEvent) : String :=
  if structured then e.toJson.compact
  else " ".intercalate ([e.level.name, e.message] ++ e.fields.map fieldText)

/-- The theme for a terminal, if there is one that may be coloured. -/
def chooseTheme : IO (Option Terminal.Theme) := do
  if (← IO.getEnv "NO_COLOR").isSome then return none
  if ← (← IO.getStdout).isTty then
    return some (.detect (← IO.getEnv "CODEC_PARITY_THEME") (← IO.getEnv "COLORFGBG"))
  return none

/-- Says what a command has to say on the side. -/
def tell (i : CommandLine.Invocation) (notices : List CommandLine.Notice) : IO Unit := do
  let filter := CommandLine.JournalFilter.choose (← IO.getEnv "RUST_LOG") i.verbose
  for notice in notices do
    match notice with
    | .line text => IO.eprintln text
    | .event e => (filter.pass? e).forM fun e => IO.eprintln (eventLine i.structured e)

/-- Does what an invocation says, and returns the exit code. -/
def execute (i : CommandLine.Invocation) : IO UInt32 := do
  let before : FileTree := ⟨← filesIn [] maxDirectoryDepth, []⟩
  let outcome := i.perform (← chooseTheme) before
  tell i outcome.notices
  for line in outcome.lines do
    IO.println line
  writeChanges before outcome.tree
  return UInt32.ofNat outcome.exitCode

end WireParity.Program

open WireParity in
/-- Runs the program on its arguments. -/
def main (arguments : List String) : IO UInt32 := do
  match CommandLine.Invocation.parse arguments with
  | .ok i => Program.execute i
  | .error (.asked "version") =>
    IO.println CommandLine.versionLine
    return 0
  | .error (.asked _) =>
    CommandLine.usageLines.forM fun line => IO.println line
    return 0
  | .error .misuse =>
    CommandLine.usageLines.forM fun line => IO.eprintln line
    return UInt32.ofNat Report.exitFatal
