import WireParity.Parity.Config
import WireParity.Text.Blank

/-!
# Naming external programs

An option names an adapter and the program that it runs, with the program's arguments:
`NAME=PROGRAM ARGUMENT …`.
-/

namespace WireParity

/-- An adapter that runs a program. -/
structure AdapterSpec where
  name : String
  program : String
  arguments : List String
deriving Repr, DecidableEq

/-- Reads a specification. -/
def AdapterSpec.parse (spec : String) : Except ConfigFault AdapterSpec :=
  match Text.splitOnce? '=' spec with
  | none => .error (.adapterNotPair spec)
  | some (before, command) =>
    let name := Text.trim before
    if name = "" then .error (.adapterWithoutName spec)
    else match Text.words command with
      | [] => .error (.adapterWithoutProgram name)
      | program :: arguments => .ok ⟨name, program, arguments⟩

end WireParity
