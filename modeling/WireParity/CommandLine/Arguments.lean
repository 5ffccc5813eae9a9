import WireParity.CommandLine.Options
import WireParity.Number.Numeral
import WireParity.Parity.Config
import WireParity.Shape.Selections

/-!
# The commands

There are three commands: one runs a corpus, one shows the layout of its types, and one decodes a
file. Options about the log may stand before the command or after it.
-/

namespace WireParity.CommandLine

/-- What to run and how. Options that are not given leave the choice to the manifests. -/
structure RunOptions where
  corpus : String
  parity : Bool
  mode : Option String
  adapters : List String
  reference : Bool
  timeoutMs : Option Nat
  jobs : Option Nat
  roundtrip : Bool
  start : Option String
  output : Option String
deriving Repr, DecidableEq

namespace RunOptions

/-- The mode that is asked for, or else another one. -/
def modeOver (o : RunOptions) (base : Mode) : Except ConfigFault Mode :=
  if o.parity then .ok .parity
  else match o.mode with
    | some text => Mode.parse text
    | none => .ok base

/-- The configuration: the options over the settings of the manifests over the defaults. -/
def config (o : RunOptions) (s : Settings) : Except ConfigFault Config := do
  let base ← Config.ofSettings s
  let mode ← o.modeOver base.mode
  return {
    mode
    timeout := (o.timeoutMs.map .ofMs).getD base.timeout
    jobs := o.jobs.or base.jobs
    roundtrip := o.roundtrip || base.roundtrip }

end RunOptions

/-- What to show the layout of. -/
structure LayoutOptions where
  corpus : String
  type : Option String
  choices : List String
deriving Repr, DecidableEq

/-- What to decode as what. -/
structure DecodeOptions where
  corpus : String
  type : String
  file : String
  choices : List String
deriving Repr, DecidableEq

/-- A command. -/
inductive Action
  | run (o : RunOptions)
  | layout (o : LayoutOptions)
  | decode (o : DecodeOptions)
deriving Repr, DecidableEq

/-- A command, and what is asked of the log. -/
structure Invocation where
  verbose : Bool
  structured : Bool
  action : Action
deriving Repr, DecidableEq

/-- The selections of variants that are written one by one. -/
def selections (choices : List String) : Selections :=
  .ofList (choices.map Selections.parseChoice)

/-- Any text will do. -/
def anyText (_ : String) : Bool := true

/-- Any text but the empty one. -/
def someText (text : String) : Bool := text != ""

/-- A number of 64 bits. -/
def wordText (text : String) : Bool := (Numeral.natBelow? (Nat.pow 2 64) text).isSome

/-- The number that a text of this kind denotes. -/
def wordOf (text : String) : Nat := (Numeral.natBelow? (Nat.pow 2 64) text).getD 0

/-- A switch. -/
def switch (name : String) (letter : Option Char) : OptionSpec := ⟨name, letter, .switch, anyText⟩

/-- The question how the program is used. -/
def helpOption : OptionSpec := ⟨"help", some 'h', .question, anyText⟩

/-- The options that may stand before the command or after it. -/
def logOptions : List OptionSpec := [switch "verbose" (some 'v'), switch "log-json" none]

/-- The arguments up to the command. -/
def leadSpec : CommandSpec :=
  ⟨logOptions ++ [helpOption, ⟨"version", some 'V', .question, anyText⟩], []⟩

/-- The option that selects variants. -/
def variantOption : OptionSpec := ⟨"variant", none, .repeated, anyText⟩

/-- The arguments of a run. -/
def runSpec : CommandSpec where
  options := logOptions ++ [helpOption, switch "parity" none, ⟨"mode", none, .single, anyText⟩,
    ⟨"adapter", some 'a', .repeated, anyText⟩, switch "reference" none,
    ⟨"timeout-ms", none, .single, wordText⟩, ⟨"jobs", some 'j', .single, wordText⟩,
    switch "roundtrip" none, ⟨"filter", none, .single, anyText⟩,
    ⟨"output", some 'o', .single, someText⟩]
  operands := [someText]

/-- The arguments of the layout command. -/
def layoutSpec : CommandSpec := ⟨logOptions ++ [helpOption, variantOption], [someText, anyText]⟩

/-- The arguments of the decoding command. -/
def decodeSpec : CommandSpec :=
  ⟨logOptions ++ [helpOption, variantOption], [someText, anyText, someText]⟩

/-- The options of a run. -/
def RunOptions.ofGiven (g : Given) : Except Stop RunOptions :=
  match g.operands with
  | [corpus] =>
    if g.has "parity" ∧ g.has "mode" then .error .misuse
    else .ok {
      corpus
      parity := g.has "parity"
      mode := g.value? "mode"
      adapters := g.values "adapter"
      reference := g.has "reference"
      timeoutMs := (g.value? "timeout-ms").map wordOf
      jobs := (g.value? "jobs").map wordOf
      roundtrip := g.has "roundtrip"
      start := g.value? "filter"
      output := g.value? "output" }
  | _ => .error .misuse

/-- The options of the layout command. -/
def LayoutOptions.ofGiven (g : Given) : Except Stop LayoutOptions :=
  match g.operands with
  | corpus :: type => .ok { corpus, type := type.head?, choices := g.values "variant" }
  | [] => .error .misuse

/-- The options of the decoding command. -/
def DecodeOptions.ofGiven (g : Given) : Except Stop DecodeOptions :=
  match g.operands with
  | [corpus, type, file] => .ok { corpus, type, file, choices := g.values "variant" }
  | _ => .error .misuse

/-- A command by its name, with what its arguments must be and how they are understood. -/
def command? : String → Option (CommandSpec × (Given → Except Stop Action))
  | "run" => some (runSpec, fun g => (RunOptions.ofGiven g).map .run)
  | "layout" => some (layoutSpec, fun g => (LayoutOptions.ofGiven g).map .layout)
  | "decode" => some (decodeSpec, fun g => (DecodeOptions.ofGiven g).map .decode)
  | _ => none

/-- Reads all arguments. -/
def Invocation.parse (arguments : List String) : Except Stop Invocation := do
  let (lead, rest) ← read leadSpec none .nothing arguments
  match rest with
  | [] => .error .misuse
  | name :: rest =>
    if name = "help" then .error (.asked "help")
    else match command? name with
      | none => .error .misuse
      | some (spec, understand) =>
        let (g, _) ← read spec none .nothing rest
        let action ← understand g
        return {
          verbose := lead.has "verbose" || g.has "verbose"
          structured := lead.has "log-json" || g.has "log-json"
          action }

end WireParity.CommandLine
