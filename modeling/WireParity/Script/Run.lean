import WireParity.Script.Expansion
import WireParity.Script.Reader
import WireParity.Script.Shell

/-!
# Running scripts

Running goes by recursion over the commands. What a command in a pipe or in a word does stays
there, but for files, time, complaints and the death of the shell.
-/

namespace WireParity.Script

/-- Where a command's output goes. -/
inductive Sink
  | output
  | errors
  | nothing
  | file (path : String)
deriving Repr, DecidableEq

/-- The streams of a command. Its input is the shell's own unless other bytes are given. -/
structure Streams where
  input : Option Bytes
  output : Sink
  errors : Sink
deriving Repr

namespace Streams

/-- The streams of the shell. -/
def own : Streams := ⟨none, .output, .errors⟩

/-- Where the stream with a number goes. -/
def sink (s : Streams) (stream : Nat) : Sink := if stream = 2 then s.errors else s.output

/-- The streams, with one of them redirected. -/
def withSink (s : Streams) (stream : Nat) (sink : Sink) : Streams :=
  if stream = 2 then { s with errors := sink } else { s with output := sink }

end Streams

/-- The file into which everything disappears. -/
def nullPath : String := "/dev/null"

namespace Shell

/-- Bytes arrive where they go. -/
def deliver (sh : Shell) (bytes : Bytes) : Sink → Shell
  | .output => { sh with output := sh.output ++ bytes }
  | .errors => { sh with errors := sh.errors ++ bytes }
  | .nothing => sh
  | .file path =>
    match sh.tree.write path (((sh.tree.read path).toOption).getD [] ++ bytes) with
    | .ok tree => { sh with tree }
    | .error _ => sh

/-- Lets something happen with other streams. -/
def within (sh : Shell) (s : Streams) (act : Shell → Shell) : Shell :=
  let inner := act { sh with input := s.input.getD sh.input, output := [], errors := [] }
  let outer := { inner with
    input := if s.input.isSome then sh.input else inner.input
    output := sh.output
    errors := sh.errors }
  (outer.deliver inner.output s.output).deliver inner.errors s.errors

/-- A shell after another that it started has ended. -/
def afterChild (sh child : Shell) : Shell :=
  { sh with
    tree := child.tree
    errors := child.errors
    ms := child.ms
    status := match child.ended with
      | some (.code n) => n
      | _ => child.status
    ended := match child.ended with
      | some (.signal n) => some (.signal n)
      | _ => sh.ended }

/-- One more redirection of streams. Where a file cannot be opened there is a complaint instead. -/
def redirect (sh : Shell) (line : Nat) (s : Streams) (r : Redirection String) :
    Option Streams × Shell :=
  match r.direction with
  | .join => (some (s.withSink r.stream (s.sink ((Numeral.natBelow? 3 r.target).getD 1))), sh)
  | .read =>
    if r.target = nullPath then (some { s with input := some [] }, sh)
    else match sh.tree.read r.target with
      | .ok content => (some { s with input := some content }, sh)
      | .error _ => (none, sh.refuse line ("cannot open " ++ r.target ++ ": No such file") 2)
  | direction =>
    if r.target = nullPath then (some (s.withSink r.stream .nothing), sh)
    else
      let kept := if direction = .append then ((sh.tree.read r.target).toOption).getD [] else []
      match sh.tree.write r.target kept with
      | .ok tree => (some (s.withSink r.stream (.file r.target)), { sh with tree })
      | .error .isDirectory =>
        (none, sh.refuse line ("cannot create " ++ r.target ++ ": Is a directory") 2)
      | .error _ =>
        (none, sh.refuse line ("cannot create " ++ r.target ++ ": Directory nonexistent") 2)

/-- Redirections in order. -/
def redirectAll (sh : Shell) (line : Nat) (s : Streams) :
    List (Redirection String) → Option Streams × Shell
  | [] => (some s, sh)
  | r :: rest =>
    match sh.redirect line s r with
    | (some s, sh) => sh.redirectAll line s rest
    | (none, sh) => (none, sh)

/-- Assigns values to names. -/
def assign (sh : Shell) (assignments : List (Assignment String)) : Shell :=
  { sh with bindings := Table.insertAll sh.bindings (assignments.map fun a => (a.name, a.value)) }

/-- Does what the fields of a simple command say. Without a command its assignments stay. -/
def execute (sh : Shell) (line : Nat) (assignments : List (Assignment String)) :
    List String → Shell
  | [] => (sh.done 0).assign assignments
  | "exec" :: command :: arguments =>
    let after := sh.perform line command arguments
    if after.ended.isSome then after else after.endWith (.code after.status)
  | command :: arguments => sh.perform line command arguments

end Shell

/-- Text without the line ends at its end. -/
def withoutLineEnds (text : String) : String :=
  String.ofList (text.toList.reverse.dropWhile (· = '\n')).reverse

mutual

/-- What a part of a word comes to. -/
def expandPart : Part → Shell → Piece × Shell
  | .text s, sh => (.fixed s, sh)
  | .anyText, sh => (.anyText, sh)
  | .anyChar, sh => (.anyChar, sh)
  | .parameter quoted name, sh =>
    (if quoted then .fixed (sh.parameter name) else .loose (sh.parameter name), sh)
  | .output quoted commands, sh =>
    let child := runAll commands { sh with output := [] }
    let text := withoutLineEnds (Utf8.lossy child.output)
    (if quoted then .fixed text else .loose text,
      { sh.afterChild child with input := child.input })

/-- What the parts of a word come to. -/
def expand : List Part → Shell → List Piece × Shell
  | [], sh => ([], sh)
  | part :: rest, sh =>
    let (piece, sh) := expandPart part sh
    let (pieces, sh) := expand rest sh
    (piece :: pieces, sh)

/-- What words come to. -/
def expandAll : List (List Part) → Shell → List (List Piece) × Shell
  | [], sh => ([], sh)
  | word :: rest, sh =>
    let (pieces, sh) := expand word sh
    let (others, sh) := expandAll rest sh
    (pieces :: others, sh)

/-- What the targets of redirections come to. -/
def expandTargets : List (Redirection (List Part)) → Shell → List (Redirection String) × Shell
  | [], sh => ([], sh)
  | ⟨stream, direction, target⟩ :: rest, sh =>
    let (pieces, sh) := expand target sh
    let (others, sh) := expandTargets rest sh
    (⟨stream, direction, Piece.text pieces⟩ :: others, sh)

/-- What the values of assignments come to. -/
def expandValues : List (Assignment (List Part)) → Shell → List (Assignment String) × Shell
  | [], sh => ([], sh)
  | ⟨name, value⟩ :: rest, sh =>
    let (pieces, sh) := expand value sh
    let (others, sh) := expandValues rest sh
    (⟨name, Piece.text pieces⟩ :: others, sh)

/-- Runs a command. -/
def run : Command → Shell → Shell
  | .simple line assignments words redirections, sh =>
    let (words, sh) := expandAll words sh
    let (targets, sh) := expandTargets redirections sh
    let (values, sh) := expandValues assignments sh
    if sh.ended.isSome then sh
    else match sh.redirectAll line .own targets with
      | (some streams, sh) =>
        sh.within streams fun inner => inner.execute line values (words.flatMap Piece.fields)
      | (none, sh) => sh
  | .choice subject arms, sh =>
    let (pieces, sh) := expand subject sh
    runArms arms (Piece.text pieces).toList sh
  | .pipe left right, sh =>
    let first := run left { sh with output := [] }
    let second := run right { sh.afterChild first with input := first.output }
    { (sh.afterChild second) with output := second.output, input := first.input }
  | .ifSuccess first second, sh =>
    let sh := run first sh
    if sh.ended.isSome ∨ sh.status ≠ 0 then sh else run second sh
  | .ifFailure first second, sh =>
    let sh := run first sh
    if sh.ended.isSome ∨ sh.status = 0 then sh else run second sh

/-- Runs commands one after another, until the shell has ended. -/
def runAll : List Command → Shell → Shell
  | [], sh => sh
  | command :: rest, sh => if sh.ended.isSome then sh else runAll rest (run command sh)

/-- Runs the first arm with a pattern that covers the subject. -/
def runArms : List (Arm (List Part) Command) → List Char → Shell → Shell
  | [], _, sh => sh.done 0
  | ⟨patterns, body⟩ :: rest, subject, sh =>
    let (alternatives, sh) := expandAll patterns sh
    if sh.ended.isSome then sh
    else if alternatives.any fun pieces => Piece.covers pieces subject then
      runAll body (sh.done 0)
    else runArms rest subject sh

end

/-- A shell before its script. -/
def Shell.start (tree : FileTree) (arguments : List String) (input : Bytes)
    (patience : Option Nat) : Shell :=
  { tree, bindings := [], arguments, input, output := [], errors := [], ms := 0, status := 0,
    ended := none, patience }

/-- A shell after the script of a text. A text that is no script ends it with a complaint. -/
def Shell.runText (sh : Shell) (text : String) : Shell :=
  match parse? text with
  | some commands => runAll commands sh
  | none => sh.refuse 1 "Syntax error" 2

end WireParity.Script
