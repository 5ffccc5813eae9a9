import WireParity.Codec.FromJson
import WireParity.Codec.ToJson
import WireParity.External.Program
import WireParity.Json.Reader
import WireParity.Json.Record
import WireParity.Parity.Adapter
import WireParity.Shape.Json
import WireParity.Text.Utf8

/-!
# Codecs in other programs

A codec may live in a program of its own, which is run once for every call. It reads one request
from its input, a JSON object with the operation, the type, the value or the bytes in hexadecimal,
and the selected variants. It answers with one JSON object, which says whether all went well and has
the bytes, the value or an error. A program that fails, or answers something else, has failed the
call.
-/

namespace WireParity

/-- What a codec is asked for. -/
inductive CodecRequest
  | encode (value : Json)
  | decode (bytes : Bytes)

namespace CodecRequest

/-- A request about a shape as JSON. -/
def written (request : CodecRequest) (shape : Shape) (s : Selections) : WrittenJson :=
  let variants := s.toList.map fun choice => (choice.1, WrittenJson.string choice.2)
  match request with
  | encode value => .object [("op", .string "encode"), ("type", shape.written),
      ("value", value.written), ("variants", .object variants)]
  | decode bytes => .object [("op", .string "decode"), ("type", shape.written),
      ("hex", .string (Hex.encode bytes)), ("variants", .object variants)]

/-- The bytes of a request about a shape. -/
def bytes (request : CodecRequest) (shape : Shape) (s : Selections) : Bytes :=
  Utf8.encode (request.written shape s).compact

end CodecRequest

/-- What a codec answers. -/
structure CodecResponse where
  ok : Bool
  hex : Option String
  value : Option Json
  error : Option String

namespace CodecResponse

/-- The response that JSON stands for. -/
def ofJson? (json : WrittenJson) : Option CodecResponse :=
  match json.record? false ["ok", "hex", "value", "error"] with
  | some [ok, hex, value, error] => do
    let ok ← ok.required WrittenJson.bool?
    let hex ← hex.orDefault none (Slot.nullable WrittenJson.text?)
    let value ← value.orDefault none (Slot.nullable WrittenJson.settle)
    let error ← error.orDefault none (Slot.nullable WrittenJson.text?)
    return { ok, hex, value, error }
  | _ => none

/-- The response that bytes stand for. -/
def ofBytes? (bytes : Bytes) : Option CodecResponse :=
  (Utf8.text? bytes).bind fun text => (Json.ofText? text).bind ofJson?

end CodecResponse

/-- Why the output of a program is no response. -/
inductive ResponseFlaw
  | notUtf8
  | notJson
  | notRecord
deriving Repr, DecidableEq

namespace ResponseFlaw

/-- What is wrong, in words that do not name the place in the output. -/
def text : ResponseFlaw → String
  | notUtf8 => "not UTF-8"
  | notJson => "not JSON"
  | notRecord => "not a response record"

/-- The flaw of bytes that stand for no response. -/
def ofBytes (bytes : Bytes) : ResponseFlaw :=
  match Utf8.text? bytes with
  | none => notUtf8
  | some text => if (Json.ofText? text).isSome then notRecord else notJson

end ResponseFlaw

/-- Why a call to a program has no result. -/
inductive ExchangeFault
  | notStarted (program reason : String)
  | exited (program : String) (status : ExitStatus) (errors : Bytes)
  | malformed (flaw : ResponseFlaw) (output : Bytes)
  | reported (error : Option String)
  | noBytes
  | notHex (fault : Hex.Fault)
  | noValue
  | badValue (error : CodecError)
deriving Repr, DecidableEq

/-- The wording of a fault. -/
def ExchangeFault.message : ExchangeFault → String
  | notStarted program reason => s!"cannot run {program}: {reason}"
  | exited program status errors =>
    s!"{program} exited with {status.text}: {Text.trim (Utf8.lossy errors)}"
  | malformed flaw output =>
    s!"malformed response ({flaw.text}): {Text.trim (Utf8.lossy output)}"
  | reported error => error.getD "codec reported failure"
  | noBytes => "encode response has no 'hex'"
  | notHex fault => s!"encode response 'hex' is not hex: {fault.message}"
  | noValue => "decode response has no 'value'"
  | badValue error => s!"decode response value: {error.message}"

/-- A codec in a program: its name among the adapters, the name of the program, what the program
does, and the time after which a call is given up, if there is such a limit. -/
structure ExternalCodec where
  name : String
  program : String
  act : Program
  deadline : Option Duration

namespace ExternalCodec

/-- A failed call. -/
def fault {α : Type} (f : ExchangeFault) : Except AdapterFailure α := .error (.failed f.message)

/-- The response in what came of a run. -/
def response (c : ExternalCodec) (run : ProgramRun) : Except AdapterFailure CodecResponse :=
  if run.status.isSuccess then
    match CodecResponse.ofBytes? run.output with
    | some r => if r.ok then .ok r else fault (.reported r.error)
    | none => fault (.malformed (.ofBytes run.output) run.output)
  else fault (.exited c.program run.status run.errors)

/-- Whether a run that took so long is given up, and after which time. -/
def givenUp? (c : ExternalCodec) (run : ProgramRun) : Option Duration :=
  c.deadline.filter fun limit => limit.ns ≤ run.elapsed.ns

/-- A call with a request, of which the response is read in some way. -/
def call {α : Type} (c : ExternalCodec) (request : Bytes)
    (read : CodecResponse → Except AdapterFailure α) : Call α :=
  match c.act request with
  | .error reason => .answer (fault (.notStarted c.program reason))
  | .ok run =>
    match c.givenUp? run with
    | some limit => ⟨limit, .returned (.error (.timedOut limit))⟩
    | none => ⟨run.elapsed, .returned ((c.response run).bind read)⟩

/-- The bytes in a response. -/
def bytesOf (r : CodecResponse) : Except AdapterFailure Bytes :=
  match r.hex with
  | none => fault .noBytes
  | some hex =>
    match Hex.decode (Text.trim hex) with
    | .ok bytes => .ok bytes
    | .error f => fault (.notHex f)

/-- The value of a shape in a response. -/
def valueOf (shape : Shape) (s : Selections) (r : CodecResponse) : Except AdapterFailure Value :=
  match r.value with
  | none => fault .noValue
  | some json =>
    match shape.valueOfJson json s with
    | .ok value => .ok value
    | .error e => fault (.badValue e)

/-- The codec as an adapter. -/
def adapter (c : ExternalCodec) : Adapter where
  name := c.name
  encode shape value s :=
    c.call ((CodecRequest.encode (shape.jsonOfValue value s)).bytes shape s) bytesOf
  decode shape bytes s := c.call ((CodecRequest.decode bytes).bytes shape s) (valueOf shape s)
  start := .started

end ExternalCodec

end WireParity
