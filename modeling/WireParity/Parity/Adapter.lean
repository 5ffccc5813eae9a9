import WireParity.Codec.Decode
import WireParity.Codec.Encode
import WireParity.Parity.Config

/-!
# Adapters

An adapter stands for a codec under test. What a call comes to is a function of its input: it takes
some time and then answers, fails or breaks down. `Call.settle` is the verdict under a time limit.
Calls are made on threads that are named for the adapter. A name that no thread can have is not a
failure of the call: it is a panic of the caller.
-/

namespace WireParity

/-- Why an adapter call has no result. -/
inductive AdapterFailure
  | failed (message : String)
  | timedOut (limit : Duration)
deriving Repr, DecidableEq

/-- The wording of a failure. -/
def AdapterFailure.message : AdapterFailure → String
  | failed message => message
  | timedOut limit => s!"timed out after {limit.ms}ms"

/-- What takes down whoever causes it, past all results and errors. -/
inductive Panic
  | threadName (name : String)
  | start (adapter : String)
deriving Repr, DecidableEq

/-- The wording of a panic. -/
def Panic.message : Panic → String
  | threadName _ => "thread name may not contain interior null bytes"
  | start adapter => s!"adapter {adapter} broke down when it was started"

/-- Starts a thread. No thread has a NUL in its name. -/
def startThread (name : String) : Except Panic Unit :=
  if '\x00' ∈ name.toList then .error (.threadName name) else .ok ()

/-- The name of the threads on which an adapter is called. -/
def threadName (adapter : String) : String := "adapter-" ++ adapter

/-- How a call ends. -/
inductive CallEnd (α : Type)
  | returned (result : Except AdapterFailure α)
  | panicked

/-- A call: how long it takes, and how it ends. -/
structure Call (α : Type) where
  elapsed : Duration
  ending : CallEnd α

namespace Call

variable {α : Type}

/-- A call that answers at once. -/
def answer (result : Except AdapterFailure α) : Call α := ⟨⟨0⟩, .returned result⟩

/-- What comes of a call on a thread of its own, which may take as long as the limit. -/
def settle (limit : Duration) (call : Call α) : Except AdapterFailure α :=
  if limit.ns < call.elapsed.ns then .error (.timedOut limit)
  else match call.ending with
    | .returned result => result
    | .panicked => .error (.failed "adapter panicked")

end Call

/-- How it ends to start an adapter. One that refuses says why. -/
inductive Start
  | started
  | refused (failure : AdapterFailure)
  | panicked
deriving Repr, DecidableEq

/-- A codec under test. -/
structure Adapter where
  name : String
  encode : Shape → Value → Selections → Call Bytes
  decode : Shape → Bytes → Selections → Call Value
  start : Start

namespace Adapter

/-- A codec error as an adapter reports it. -/
def reported {α : Type} (result : Except CodecError α) : Except AdapterFailure α :=
  match result with
  | .ok a => .ok a
  | .error e => .error (.failed e.message)

/-- The canonical codec as an adapter. -/
def reference (name : String) : Adapter where
  name
  encode shape value s := .answer (reported (shape.encode value s))
  decode shape bytes s := .answer (reported (shape.decode bytes s))
  start := .started

/-- The name of the reference adapter where none is given. -/
def referenceName : String := "reference"

/-- A codec with the opposite byte order: it reads and writes every scalar with its bytes
reversed. -/
def swapped (name : String) : Adapter where
  name
  encode shape value s := .answer (reported (shape.encode value.swap s))
  decode shape bytes s := .answer (reported ((shape.decode bytes s).map Value.swap))
  start := .started

/-- A codec that fails every call. -/
def failing (name message : String) : Adapter where
  name
  encode _ _ _ := .answer (.error (.failed message))
  decode _ _ _ := .answer (.error (.failed message))
  start := .started

/-- The canonical codec, with a delay before each call. -/
def slow (name : String) (ms : Nat) : Adapter where
  name
  encode shape value s := ⟨.ofMs ms, .returned (reported (shape.encode value s))⟩
  decode shape bytes s := ⟨.ofMs ms, .returned (reported (shape.decode bytes s))⟩
  start := .started

/-- The canonical codec, if it starts. -/
def starting (name : String) (refuses : Bool) : Adapter :=
  { reference name with
    start := if refuses then .refused (.failed "runtime not installed") else .started }

end Adapter

end WireParity
