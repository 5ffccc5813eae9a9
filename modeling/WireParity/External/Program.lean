import WireParity.Bytes.Hex
import WireParity.Parity.Config

/-!
# External programs

To whoever starts it, a program is what it does with the bytes on its standard input: after some
time it ends, and has written bytes to its two outputs.
-/

namespace WireParity

/-- How a program ends: by itself, with an exit code, or by a signal. -/
inductive ExitStatus
  | code (n : Nat)
  | signal (n : Nat)
deriving Repr, DecidableEq

namespace ExitStatus

/-- The signals in order of their numbers, from one. -/
def signalNames : List String :=
  ["HUP", "INT", "QUIT", "ILL", "TRAP", "ABRT", "BUS", "FPE", "KILL", "USR1", "SEGV", "USR2",
   "PIPE", "ALRM", "TERM", "STKFLT", "CHLD", "CONT", "STOP", "TSTP", "TTIN", "TTOU", "URG", "XCPU",
   "XFSZ", "VTALRM", "PROF", "WINCH", "IO", "PWR", "SYS"]

/-- The signal that takes a program off without asking it. -/
def kill : ExitStatus := .signal 9

/-- The program ended by itself and was content. -/
def isSuccess (s : ExitStatus) : Bool := s == .code 0

/-- The text of a status. -/
def text : ExitStatus → String
  | code n => s!"exit status: {n}"
  | signal n =>
    match signalNames[n - 1]? with
    | some name => s!"signal: {n} (SIG{name})"
    | none => s!"signal: {n}"

end ExitStatus

/-- What came of running a program. -/
structure ProgramRun where
  elapsed : Duration
  status : ExitStatus
  output : Bytes
  errors : Bytes
deriving Repr

/-- A program, by what it does with its input. One that cannot be started has a reason instead. -/
abbrev Program := Bytes → Except String ProgramRun

end WireParity
