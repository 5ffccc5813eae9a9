/-!
# Options and operands

Arguments are options, which begin with a dash, and operands, which do not. An option has a long
name and perhaps a letter; it is a switch, or takes a value that stands behind an equals sign or
comes as the next argument. Switches may be joined behind one dash. After two dashes alone
everything is an operand. Arguments are taken one by one, and the first that is wrong stops the
reading, as does a question that is answered at once.
-/

namespace WireParity.CommandLine

/-- What an option does: it is a switch, takes a value once or any number of times, or asks a
question. -/
inductive OptionRole
  | switch
  | single
  | repeated
  | question
deriving Repr, DecidableEq

/-- An option. Values that it does not accept are refused. -/
structure OptionSpec where
  name : String
  letter : Option Char
  role : OptionRole
  accepts : String → Bool

/-- The options of a command, and for each of its operands which texts it accepts. -/
structure CommandSpec where
  options : List OptionSpec
  operands : List (String → Bool)

/-- What was given: options with their values, switches with empty ones, and operands. -/
structure Given where
  options : List (String × String)
  operands : List String
deriving Repr

/-- Why arguments are not read to their end. -/
inductive Stop
  | misuse
  | asked (question : String)
deriving Repr, DecidableEq

namespace Given

/-- Nothing is given. -/
def nothing : Given := ⟨[], []⟩

/-- The option is among those given. -/
def has (g : Given) (name : String) : Bool := g.options.any fun o => o.1 == name

/-- The values of an option, in order. -/
def values (g : Given) (name : String) : List String :=
  (g.options.filter fun o => o.1 == name).map Prod.snd

/-- The value of an option. -/
def value? (g : Given) (name : String) : Option String := (g.values name).head?

/-- One more operand. -/
def withOperand (g : Given) (spec : CommandSpec) (text : String) : Except Stop Given :=
  match spec.operands[g.operands.length]? with
  | some accepts =>
    if accepts text then .ok { g with operands := g.operands ++ [text] } else .error .misuse
  | none => .error .misuse

/-- More operands. -/
def withOperands (g : Given) (spec : CommandSpec) : List String → Except Stop Given
  | [] => .ok g
  | text :: rest => do
    let g ← g.withOperand spec text
    g.withOperands spec rest

/-- One more option. Only a repeated one may be given again. -/
def withOption (g : Given) (o : OptionSpec) (value : String) : Except Stop Given :=
  if o.role = .question then .error (.asked o.name)
  else if o.role ≠ .repeated ∧ g.has o.name then .error .misuse
  else if o.accepts value then .ok { g with options := g.options ++ [(o.name, value)] }
  else .error .misuse

end Given

namespace OptionSpec

/-- The option takes a value. -/
def takesValue (o : OptionSpec) : Bool := o.role == .single || o.role == .repeated

end OptionSpec

/-- What is known between two arguments: what was given, and the option whose value comes next. -/
abbrev Progress := Except Stop (Given × Option OptionSpec)

/-- An option with what stands behind its equals sign, if there is one. -/
def Given.withLong (g : Given) (o : OptionSpec) : Option String → Progress
  | some value =>
    if o.takesValue then (g.withOption o value).map (·, none) else .error .misuse
  | none =>
    if o.takesValue then .ok (g, some o) else (g.withOption o "").map (·, none)

/-- Joined letters. The rest behind an option with a value is its value. -/
def Given.withLetters (g : Given) (spec : CommandSpec) : List Char → Progress
  | [] => .ok (g, none)
  | letter :: rest =>
    match spec.options.find? fun o => o.letter == some letter with
    | none => .error .misuse
    | some o =>
      if o.takesValue then
        match rest with
        | [] => .ok (g, some o)
        | '=' :: value => (g.withOption o (String.ofList value)).map (·, none)
        | value => (g.withOption o (String.ofList value)).map (·, none)
      else do
        let g ← g.withOption o ""
        g.withLetters spec rest

/-- An argument that begins with a dash and is more than one. -/
def isOption (argument : String) : Bool :=
  match argument.toList with
  | '-' :: _ :: _ => true
  | _ => false

/-- One option argument. -/
def Given.withArgument (g : Given) (spec : CommandSpec) (argument : String) : Progress :=
  match argument.toList with
  | '-' :: '-' :: rest =>
    let name := rest.takeWhile (· != '=')
    let value := match rest.dropWhile (· != '=') with
      | _ :: value => some (String.ofList value)
      | [] => none
    match spec.options.find? fun o => o.name == String.ofList name with
    | some o => g.withLong o value
    | none => .error .misuse
  | _ :: letters => g.withLetters spec letters
  | [] => .error .misuse

/-- Reads arguments up to their end, or up to the first operand if there are to be none: what was
given, and what is left. -/
def read (spec : CommandSpec) : Option OptionSpec → Given → List String →
    Except Stop (Given × List String)
  | none, g, [] => .ok (g, [])
  | some _, _, [] => .error .misuse
  | some o, g, argument :: rest =>
    if isOption argument then .error .misuse
    else do
      let g ← g.withOption o argument
      read spec none g rest
  | none, g, argument :: rest =>
    if argument = "--" then (g.withOperands spec rest).map (·, [])
    else if isOption argument then do
      let (g, pending) ← g.withArgument spec argument
      read spec pending g rest
    else if spec.operands.isEmpty then .ok (g, argument :: rest)
    else do
      let g ← g.withOperand spec argument
      read spec none g rest

end WireParity.CommandLine
