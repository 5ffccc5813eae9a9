import WireParity.External.Program
import WireParity.Files.Tree
import WireParity.Number.Numeral
import WireParity.Table
import WireParity.Text.Blank

/-!
# The state of a script, and the commands that are not scripts

A shell has the files, the parameters, what is left of its input, what it has written so far, and
the time that has passed. Once it has ended nothing more happens in it. Its patience is the time
after which it is killed, if there is one.
-/

namespace WireParity.Script

/-- A running script. -/
structure Shell where
  tree : FileTree
  bindings : Table String
  arguments : List String
  input : Bytes
  output : Bytes
  errors : Bytes
  ms : Nat
  status : Nat
  ended : Option ExitStatus
  patience : Option Nat

namespace Shell

/-- The number of the shell's own process. -/
def processNumber : String := "1"

/-- The name under which a shell complains. -/
def name (sh : Shell) : String := sh.arguments.head?.getD ""

/-- The value of a parameter. -/
def parameter (sh : Shell) : String → String
  | "$" => processNumber
  | "?" => toString sh.status
  | "#" => toString (sh.arguments.length - 1)
  | name =>
    match Numeral.natBelow? (Nat.pow 2 32) name with
    | some n => (sh.arguments[n]?).getD ""
    | none => (Table.find? name sh.bindings).getD ""

/-- Writes octets to the output. -/
def writeBytes (sh : Shell) (bytes : Bytes) : Shell := { sh with output := sh.output ++ bytes }

/-- Writes a text to the output. -/
def write (sh : Shell) (text : String) : Shell := sh.writeBytes (Utf8.encode text)

/-- A command that is done, with its status. -/
def done (sh : Shell) (status : Nat) : Shell := { sh with status }

/-- A command that complains. -/
def complain (sh : Shell) (message : String) (status : Nat) : Shell :=
  { sh with errors := sh.errors ++ Utf8.encode (message ++ "\n"), status }

/-- A complaint of the shell itself about something on a line. -/
def refuse (sh : Shell) (line : Nat) (message : String) (status : Nat) : Shell :=
  sh.complain (sh.name ++ ": " ++ toString line ++ ": " ++ message) status

/-- The script ends. -/
def endWith (sh : Shell) (status : ExitStatus) : Shell := { sh with ended := some status }

/-- Time passes, and with it perhaps the patience with the script. -/
def wait (sh : Shell) (ms : Nat) : Shell :=
  match sh.patience with
  | some limit =>
    if limit < sh.ms + ms then { sh with ms := limit, ended := some .kill }
    else { sh with ms := sh.ms + ms, status := 0 }
  | none => { sh with ms := sh.ms + ms, status := 0 }

end Shell

/-- Milliseconds for a number of seconds with an optional fraction and unit. -/
def duration? (text : String) : Option Nat :=
  let (chars, unit) := match text.toList.reverse with
    | 's' :: rest => (rest.reverse, 1000)
    | 'm' :: rest => (rest.reverse, 60000)
    | 'h' :: rest => (rest.reverse, 3600000)
    | 'd' :: rest => (rest.reverse, 86400000)
    | _ => (text.toList, 1000)
  let whole := chars.takeWhile Char.isDigit
  match chars.dropWhile Char.isDigit with
  | [] => if whole.isEmpty then none else some (Numeral.value whole * unit)
  | '.' :: fraction =>
    if fraction.all Char.isDigit ∧ !(whole ++ fraction).isEmpty then
      some (Numeral.value (whole ++ fraction) * unit / Nat.pow 10 fraction.length)
    else none
  | _ => none

/-- A signal by its number or its name. -/
def signal? (text : String) : Option Nat :=
  match Numeral.natBelow? 65 text with
  | some n => some n
  | none =>
    let bare := if Text.beginsWith "SIG" text then String.ofList (text.toList.drop 3) else text
    (ExitStatus.signalNames.findIdx? (· == bare)).map (· + 1)

/-- The octet that stands for a letter after a backslash. -/
def escaped? : Char → Option UInt8
  | 'a' => some 7
  | 'b' => some 8
  | 't' => some 9
  | 'n' => some 10
  | 'v' => some 11
  | 'f' => some 12
  | 'r' => some 13
  | '\\' => some 92
  | _ => none

/-- The character is an octal digit. -/
def isOctal (c : Char) : Bool := '0' ≤ c && c ≤ '7'

/-- The octet of up to three octal digits. -/
def octal (digits : List Char) : UInt8 :=
  UInt8.ofNat (digits.foldl (fun n c => 8 * n + (c.toNat - 48)) 0)

/-- The octets of a text in which a backslash and what follows it may stand for one octet. What is
to be said after that many characters have been passed over is left out. In an argument, unlike in a
format, a zero may go before the digits of an octet. -/
def unescapeFrom (argument : Bool) : Nat → List Char → Bytes
  | _, [] => []
  | skipped + 1, _ :: rest => unescapeFrom argument skipped rest
  | 0, '\\' :: rest =>
    let zero := argument && rest.head? == some '0' && (rest.drop 1).head?.any isOctal
    let digits := ((rest.drop (if zero then 1 else 0)).take 3).takeWhile isOctal
    if digits.isEmpty then
      match rest.head?.bind escaped? with
      | some b => b :: unescapeFrom argument 1 rest
      | none => 92 :: unescapeFrom argument 0 rest
    else octal digits :: unescapeFrom argument (digits.length + if zero then 1 else 0) rest
  | 0, c :: rest => String.utf8EncodeChar c ++ unescapeFrom argument 0 rest

/-- The octets of an argument with escapes. -/
def unescape (text : String) : Bytes := unescapeFrom true 0 text.toList

/-- The octets of a format with escapes; its directives stay. -/
def unescapeFormat (text : String) : Bytes := unescapeFrom false 0 text.toList

/-- A format with its directives replaced by arguments in turn, and the arguments left over. -/
def formatOnce : Bytes → List String → Bytes × List String
  | [], arguments => ([], arguments)
  | [b], arguments => ([b], arguments)
  | b :: c :: rest, arguments =>
    if b ≠ '%'.toUInt8 then
      let (text, left) := formatOnce (c :: rest) arguments
      (b :: text, left)
    else if c = 's'.toUInt8 ∨ c = 'd'.toUInt8 then
      let (text, left) := formatOnce rest (arguments.drop 1)
      (Utf8.encode (arguments.head?.getD "") ++ text, left)
    else if c = 'b'.toUInt8 then
      let (text, left) := formatOnce rest (arguments.drop 1)
      (unescape (arguments.head?.getD "") ++ text, left)
    else
      let (text, left) := formatOnce rest arguments
      (if c = b then b :: text else b :: c :: text, left)

/-- A format used as often as there are arguments for it. -/
def formatWithin (format : Bytes) : Nat → List String → Bytes
  | 0, _ => []
  | count + 1, arguments =>
    let (text, left) := formatOnce format arguments
    if left.isEmpty ∨ left.length = arguments.length then text
    else text ++ formatWithin format count left

namespace Shell

/-- Writes the files with the given names, or its input for a dash. -/
def concatenate (sh : Shell) : List String → Shell
  | [] => sh
  | name :: rest =>
    if name = "-" then
      concatenate { sh with output := sh.output ++ sh.input, input := [] } rest
    else match sh.tree.read name with
      | .ok content => concatenate { sh with output := sh.output ++ content } rest
      | .error e =>
        concatenate (sh.complain ("cat: " ++ name ++ ": " ++ e.reason) 1) rest

/-- Sends a signal to a process, which is found only if it is the shell. -/
def sendSignal (sh : Shell) (line : Nat) (signal : String) (target : String) : Shell :=
  match signal? signal with
  | some n =>
    if target = processNumber then if n = 0 then sh.done 0 else sh.endWith (.signal n)
    else sh.refuse line "kill: No such process" 1
  | none => sh.refuse line ("kill: invalid signal number or name: " ++ signal) 2

/-- Does what a command and its arguments say. -/
def perform (sh : Shell) (line : Nat) (command : String) (arguments : List String) : Shell :=
  match command, arguments with
  | "true", _ | ":", _ => sh.done 0
  | "false", _ => sh.done 1
  | "cat", [] => concatenate (sh.done 0) ["-"]
  | "cat", names => concatenate (sh.done 0) names
  | "echo", "-n" :: words => (sh.write (" ".intercalate words)).done 0
  | "echo", words =>
    (sh.writeBytes (unescape (" ".intercalate words) ++ Utf8.encode "\n")).done 0
  | "printf", format :: words =>
    (sh.writeBytes (formatWithin (unescapeFormat format) (words.length + 1) words)).done 0
  | "printf", [] => sh.complain "printf: usage: printf format [arg ...]" 2
  | "exit", [] => sh.endWith (.code sh.status)
  | "exit", code :: _ =>
    match Numeral.natBelow? (Nat.pow 2 31) code with
    | some n => sh.endWith (.code (n % 256))
    | none => (sh.refuse line ("exit: Illegal number: " ++ code) 2).endWith (.code 2)
  | "kill", [target] => sh.sendSignal line "TERM" target
  | "kill", ["-s", signal, target] => sh.sendSignal line signal target
  | "kill", [signal, target] => sh.sendSignal line (String.ofList (signal.toList.drop 1)) target
  | "sleep", [time] =>
    match duration? time with
    | some ms => sh.wait ms
    | none => sh.complain ("sleep: invalid time interval '" ++ time ++ "'") 1
  | "sleep", _ => sh.complain "sleep: missing operand" 1
  | other, _ => sh.refuse line (other ++ ": not found") 127

end Shell

end WireParity.Script
