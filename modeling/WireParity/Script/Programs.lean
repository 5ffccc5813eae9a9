import WireParity.Script.Run

/-!
# Programs

The programs that can be started: the shell, on a script in a file or on the spot, and a few that
are also commands of scripts. A name without a slash is looked up among them, and so is one in a
directory for programs; any other path leads to a file, and files are not for running.
-/

namespace WireParity.Script

/-- The programs beside the shell. -/
def utilities : List String := ["cat", "echo", "false", "kill", "printf", "sleep", "true"]

/-- The names of the shell. -/
def shells : List String := ["sh", "dash"]

/-- The directories for programs. -/
def directories : List String := ["/bin/", "/usr/bin/"]

/-- The name that a program is looked up by: its path without a directory for programs. -/
def lookedUp (path : String) : String :=
  match directories.find? fun directory => Text.beginsWith directory path with
  | some directory => String.ofList (path.toList.drop directory.length)
  | none => path

/-- Runs the shell on arguments. -/
def Shell.main (sh : Shell) : List String → Shell
  | "-c" :: text :: [] => { sh with arguments := ["sh"] }.runText text
  | "-c" :: text :: arguments => { sh with arguments }.runText text
  | path :: arguments =>
    match sh.tree.read path with
    | .ok content => { sh with arguments := path :: arguments }.runText (Utf8.lossy content)
    | .error _ =>
      ({ sh with arguments := ["sh"] }.refuse 0 ("cannot open " ++ path ++ ": No such file") 2)
  | [] => { sh with arguments := ["sh"], input := [] }.runText (Utf8.lossy sh.input)

/-- Runs a program other than the shell. -/
def Shell.utility (sh : Shell) (name : String) (arguments : List String) : Shell :=
  if name = "echo" ∧ arguments.head? ≠ some "-n" then
    (sh.write (" ".intercalate arguments ++ "\n")).done 0
  else sh.perform 0 name arguments

/-- What came of a shell that has nothing more to do. -/
def Shell.result (sh : Shell) : ProgramRun where
  elapsed := .ofMs sh.ms
  status := sh.ended.getD (.code sh.status)
  output := sh.output
  errors := sh.errors

/-- Why a path that is no known program does not start. -/
def startFault (tree : FileTree) (path : String) : FileError :=
  if path.toList.contains '/' then
    match tree.locate path with
    | .ok _ => .denied
    | .error e => e
  else .notFound

/-- Runs a program: what came of it, and the files afterwards. -/
def start (tree : FileTree) (patience : Option Nat) (program : String) (arguments : List String)
    (input : Bytes) : Except String (ProgramRun × FileTree) :=
  let name := lookedUp program
  let sh := Shell.start tree [] input patience
  if (program :: arguments).any fun text => text.toList.contains '\x00' then
    .error "nul byte found in provided data"
  else if name ∈ shells then let sh := sh.main arguments; .ok (sh.result, sh.tree)
  else if name ∈ utilities then let sh := sh.utility name arguments; .ok (sh.result, sh.tree)
  else .error (startFault tree program).message

end WireParity.Script
