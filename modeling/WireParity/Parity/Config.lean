import WireParity.Text.Parts

/-!
# Configuration of a run

Manifests carry settings; where several set the same thing, the first one counts. A configuration
is the defaults with the settings over them. Settings and options give times in milliseconds, a
configuration may have any.
-/

namespace WireParity

/-- A span of time. -/
structure Duration where
  ns : Nat
deriving Repr, DecidableEq

namespace Duration

/-- So many milliseconds. -/
def ofMs (ms : Nat) : Duration := ⟨ms * 1000000⟩

/-- How many milliseconds have passed in full. -/
def ms (d : Duration) : Nat := d.ns / 1000000

end Duration

/-- What is compared with what. -/
inductive Mode
  | validate
  | parity
deriving Repr, DecidableEq

/-- What is wrong with a configuration. -/
inductive ConfigFault
  | unknownMode (text : String)
  | noAdapters
  | tooFewAdapters (count : Nat)
  | duplicateAdapter (name : String)
  | zeroTimeout
  | zeroJobs
  | adapterNotStarted (name reason : String)
  | workersNotStarted (jobs : Nat) (reason : String)
  | adapterNotPair (spec : String)
  | adapterWithoutName (spec : String)
  | adapterWithoutProgram (name : String)
deriving Repr, DecidableEq

/-- The wording of a fault. -/
def ConfigFault.message : ConfigFault → String
  | unknownMode text => s!"unknown mode '{text}' (expected 'validate' or 'parity')"
  | noAdapters => "no adapters configured"
  | tooFewAdapters count => s!"parity mode needs at least two adapters, got {count}"
  | duplicateAdapter name => s!"adapter name '{name}' used more than once"
  | zeroTimeout => "call timeout must be positive"
  | zeroJobs => "jobs must be at least 1"
  | adapterNotStarted name reason => s!"adapter '{name}' failed to start: {reason}"
  | workersNotStarted jobs reason => s!"cannot start {jobs} workers: {reason}"
  | adapterNotPair spec => s!"adapter '{spec}' is not NAME=PROGRAM"
  | adapterWithoutName spec => s!"adapter '{spec}' has no name"
  | adapterWithoutProgram name => s!"adapter '{name}' has no program"

namespace Mode

/-- The name of a mode. -/
def name : Mode → String
  | validate => "validate"
  | parity => "parity"

/-- The mode with a name, in any case of letters. -/
def parse (text : String) : Except ConfigFault Mode :=
  let word := Text.lowercase text
  if word = "validate" then .ok validate
  else if word = "parity" then .ok parity
  else .error (.unknownMode word)

end Mode

/-- What a manifest may set. -/
structure Settings where
  mode : Option String
  timeoutMs : Option Nat
  roundtrip : Option Bool
deriving Repr, DecidableEq

namespace Settings

/-- Nothing is set. -/
def unset : Settings := ⟨none, none, none⟩

/-- The settings, and those of others where nothing was set. -/
def mergeMissing (s other : Settings) : Settings :=
  { mode := s.mode.or other.mode
    timeoutMs := s.timeoutMs.or other.timeoutMs
    roundtrip := s.roundtrip.or other.roundtrip }

/-- The settings of manifests in order; the first that sets something counts. -/
def merged (all : List Settings) : Settings := all.foldl mergeMissing unset

end Settings

/-- The configuration of a run. Adapter calls may take up to `timeout`. -/
structure Config where
  mode : Mode
  timeout : Duration
  jobs : Option Nat
  roundtrip : Bool
deriving Repr, DecidableEq

namespace Config

/-- What holds where nothing is set. -/
def default : Config := ⟨.validate, .ofMs 10000, none, false⟩

/-- The defaults with settings over them. -/
def ofSettings (s : Settings) : Except ConfigFault Config := do
  let mode ← match s.mode with
    | some text => Mode.parse text
    | none => .ok default.mode
  return {
    mode
    timeout := (s.timeoutMs.map .ofMs).getD default.timeout
    jobs := default.jobs
    roundtrip := s.roundtrip.getD default.roundtrip }

/-- The first name that occurs before in the list. -/
def repeatedName? : List String → List String → Option String
  | _, [] => none
  | seen, name :: rest => if name ∈ seen then some name else repeatedName? (name :: seen) rest

/-- Checks a configuration against the names of the adapters of a run. -/
def check (c : Config) (adapters : List String) : Except ConfigFault Unit :=
  if adapters.isEmpty then .error .noAdapters
  else if c.mode = .parity ∧ adapters.length < 2 then .error (.tooFewAdapters adapters.length)
  else match repeatedName? [] adapters with
    | some name => .error (.duplicateAdapter name)
    | none =>
      if c.timeout.ns = 0 then .error .zeroTimeout
      else if c.jobs = some 0 then .error .zeroJobs
      else .ok ()

end Config

end WireParity
