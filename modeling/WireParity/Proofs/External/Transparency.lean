import WireParity.Proofs.Codec.JsonOrder
import WireParity.Proofs.Codec.JsonRoundTrip
import WireParity.Proofs.External.Requests
import WireParity.Proofs.Json.Carriage

/-!
# Transparent programs

A program with the canonical codec inside is no different from the codec. The shape, the selections,
the value and the bytes all pass through JSON, the bytes in hexadecimal besides, and none of them is
changed on the way there or back. A response says by a null that it has no value, so it matters that
no value of any shape is written as null.

What is sent and what is answered are taken to be carried as text. How a program words its failures
is left open.
-/

namespace WireParity

namespace CodecRequest

/-- What the canonical codec makes of a request, if it succeeds: a member of the answer. -/
def serve? (shape : Shape) (s : Selections) : CodecRequest → Option (String × WrittenJson)
  | encode json =>
    ((shape.valueOfJson json s).bind fun value => shape.encode value s).toOption.map fun bytes =>
      ("hex", .string (Hex.encode bytes))
  | decode bytes =>
    (shape.decode bytes s).toOption.map fun value => ("value", (shape.jsonOfValue value s).written)

/-- Bytes are served if a value is read from the JSON and encodes to them. -/
theorem serve?_encode {shape : Shape} {s : Selections} {json : Json} {value : Value} {bytes : Bytes}
    (hread : shape.valueOfJson json s = .ok value) (hencode : shape.encode value s = .ok bytes) :
    (encode json).serve? shape s = some ("hex", .string (Hex.encode bytes)) := by
  rw [serve?, hread]
  change (shape.encode value s).toOption.map _ = _
  rw [hencode]
  rfl

/-- The answer of the canonical codec to a request, with words for a failure. -/
def answer (request : CodecRequest) (shape : Shape) (s : Selections) (words : String) :
    WrittenJson :=
  match request.serve? shape s with
  | some member => .object [("ok", .bool true), member]
  | none => .object [("ok", .bool false), ("error", .string words)]

end CodecRequest

namespace CodecResponse

/-- Octets are read as a response by way of the JSON that they stand for. -/
theorem ofBytes?_eq (bytes : Bytes) : ofBytes? bytes = (WrittenJson.ofBytes? bytes).bind ofJson? := by
  rw [ofBytes?, WrittenJson.ofBytes?, Option.bind_assoc]

/-- An answer with bytes in it. -/
theorem ofJson?_hex (text : String) :
    ofJson? (.object [("ok", .bool true), ("hex", .string text)]) =
      some ⟨true, some text, none, none⟩ :=
  rfl

/-- An answer with a value in it. -/
theorem ofJson?_value {json : Json} (hjson : json.Ordered) (hnull : json ≠ .null) :
    ofJson? (.object [("ok", .bool true), ("value", json.written)]) =
      some ⟨true, none, some json, none⟩ := by
  have hvalue : Slot.nullable WrittenJson.settle json.written = some (some json) :=
    calc Slot.nullable WrittenJson.settle json.written
      _ = json.written.settle.map some := by
        cases json with
        | null => exact absurd rfl hnull
        | _ => rw [Json.written]; rfl
      _ = some (some json) := by rw [Json.settle_written hjson, Option.map_some]
  change (Slot.nullable WrittenJson.settle json.written).bind _ = _
  rw [hvalue]
  rfl

/-- An answer that there was a failure. -/
theorem ofJson?_error (text : String) :
    ofJson? (.object [("ok", .bool false), ("error", .string text)]) =
      some ⟨false, none, none, some text⟩ :=
  rfl

end CodecResponse

namespace ExternalCodec

variable {c : ExternalCodec} {wording : Bytes → String} {shape : Shape} {s : Selections}

/-- A program with the canonical codec inside. On any text of a request it ends well and in time, and
it answers what the canonical codec does, as far as that answer can be carried. -/
def Canonical (c : ExternalCodec) (wording : Bytes → String) : Prop :=
  ∀ (input : Bytes) (json : WrittenJson) (request : CodecRequest) (shape : Shape) (s : Selections),
    WrittenJson.ofBytes? input = some json →
    CodecRequest.ofJson? json = some (request, shape, s) →
    (request.answer shape s (wording input)).Carried →
    ∃ run, c.act input = .ok run ∧ run.status.isSuccess = true ∧ c.givenUp? run = none ∧
      WrittenJson.ofBytes? run.output = some (request.answer shape s (wording input))

/-- What a program with the canonical codec inside answers to a request. -/
def reply (wording : Bytes → String) (shape : Shape) (s : Selections) (request : CodecRequest) :
    WrittenJson :=
  request.answer shape s (wording (request.bytes shape s))

/-- A request and the answer to it are both carried as text. -/
structure Carries (wording : Bytes → String) (shape : Shape) (s : Selections)
    (request : CodecRequest) : Prop where
  sent : (request.written shape s).Carried
  answered : (reply wording shape s request).Carried

/-- A call with a request that is read back ends with what the answer to it is read as. -/
theorem ending_call {α : Type} (hcanonical : c.Canonical wording) {request : CodecRequest}
    (hcarries : Carries wording shape s request)
    (hrequest : CodecRequest.ofJson? (request.written shape s) = some (request, shape, s))
    {response : CodecResponse}
    (hresponse : CodecResponse.ofJson? (reply wording shape s request) = some response)
    (read : CodecResponse → Except AdapterFailure α) :
    (c.call (request.bytes shape s) read).ending =
      .returned (if response.ok then read response else fault (.reported response.error)) := by
  obtain ⟨run, hact, hsuccess, htime, houtput⟩ :=
    hcanonical (request.bytes shape s) _ _ _ _ hcarries.sent hrequest hcarries.answered
  have hread : CodecResponse.ofBytes? run.output = some response := by
    rw [CodecResponse.ofBytes?_eq, houtput, Option.bind_some]
    exact hresponse
  rw [call, hact]
  simp only [htime, ExternalCodec.response, hsuccess, if_true, hread]
  cases response.ok <;> rfl

/-- The bytes in a response are those that were written in hexadecimal. -/
theorem bytesOf_hex (bytes : Bytes) :
    bytesOf ⟨true, some (Hex.encode bytes), none, none⟩ = .ok bytes := by
  rw [bytesOf]
  simp only [Hex.trim_encode, Hex.decode_encode]

/-- The value in a response is the one that its JSON is read as. -/
theorem valueOf_value {json : Json} {value : Value} (hread : shape.valueOfJson json s = .ok value) :
    valueOf shape s ⟨true, none, some json, none⟩ = .ok value := by
  rw [valueOf]
  simp only [hread]

/-- A call to encode returns what the canonical codec does. -/
theorem ending_encode (hcanonical : c.Canonical wording) (hs : Table.Ordered s.entries)
    {value : Value} {bytes : Bytes} (hvalid : shape.validate = .ok ())
    (hdistinct : value.DistinctFields) (hencode : shape.encode value s = .ok bytes)
    (hcarries : Carries wording shape s (.encode (shape.jsonOfValue value s))) :
    (c.adapter.encode shape value s).ending = .returned (.ok bytes) := by
  obtain ⟨back, hread, _, _, hback⟩ := Shape.exists_valueOfJson (Shape.composes_jsonAt s)
    (Shape.wellFormed_of_validate hvalid) hdistinct hencode
  have hrequest := CodecRequest.ofJson?_encode shape hs (shape.ordered_jsonOfValue value s)
  have hserve : (CodecRequest.encode (shape.jsonOfValue value s)).serve? shape s =
      some ("hex", .string (Hex.encode bytes)) := CodecRequest.serve?_encode hread hback
  have hresponse : CodecResponse.ofJson?
      (reply wording shape s (.encode (shape.jsonOfValue value s))) =
        some ⟨true, some (Hex.encode bytes), none, none⟩ := by
    rw [reply, CodecRequest.answer, hserve]
    exact CodecResponse.ofJson?_hex _
  have hending := ending_call hcanonical hcarries hrequest hresponse bytesOf
  rw [if_pos rfl, bytesOf_hex] at hending
  exact hending

/-- A call to decode returns what the canonical codec does, or fails for it. -/
theorem ending_decode (hcanonical : c.Canonical wording) (hs : Table.Ordered s.entries)
    (hvalid : shape.validate = .ok ()) {bytes : Bytes}
    (hcarries : Carries wording shape s (.decode bytes)) :
    (c.adapter.decode shape bytes s).ending = .returned ((shape.decode bytes s).mapError
      fun _ => .failed (wording ((CodecRequest.decode bytes).bytes shape s))) := by
  have hrequest := CodecRequest.ofJson?_decode shape hs bytes
  cases hdecode : shape.decode bytes s with
  | error e =>
    have hresponse : CodecResponse.ofJson? (reply wording shape s (.decode bytes)) =
        some ⟨false, none, none,
          some (wording ((CodecRequest.decode bytes).bytes shape s))⟩ := by
      rw [reply, CodecRequest.answer, CodecRequest.serve?, hdecode]
      exact CodecResponse.ofJson?_error _
    exact ending_call hcanonical hcarries hrequest hresponse (valueOf shape s)
  | ok value =>
    have hread := Shape.valueOfJson_of_decode hvalid hdecode
    have hnull : shape.jsonOfValue value s ≠ .null := by
      intro hnull
      rw [hnull] at hread
      exact shape.valueAt_null_ne_ok hread
    have hresponse : CodecResponse.ofJson? (reply wording shape s (.decode bytes)) =
        some ⟨true, none, some (shape.jsonOfValue value s), none⟩ := by
      rw [reply, CodecRequest.answer, CodecRequest.serve?, hdecode]
      exact CodecResponse.ofJson?_value (shape.ordered_jsonOfValue value s) hnull
    have hending := ending_call hcanonical hcarries hrequest hresponse (valueOf shape s)
    rw [if_pos rfl, valueOf_value hread] at hending
    exact hending

end ExternalCodec

namespace Samples

/-- A program with the canonical codec inside, which fails in words that depend on its input. -/
def answering (wording : Bytes → String) : Program := fun input =>
  match (WrittenJson.ofBytes? input).bind CodecRequest.ofJson? with
  | some (request, shape, s) =>
    .ok ⟨.ofMs 20, .code 0, Utf8.encode (request.answer shape s (wording input)).compact, []⟩
  | none => .ok ⟨.ofMs 20, .code 2, [], Utf8.encode "no request"⟩

/-- The program as a codec that is given five seconds for a call. -/
def canonicalCodec (wording : Bytes → String) : ExternalCodec :=
  ⟨"canonical", "codec", answering wording, some (.ofMs 5000)⟩

/-- A union that holds a float and a byte, if it is selected. -/
def reading : Shape := .union [⟨"x", .struct [⟨"a", .scalar .f32⟩, ⟨"b", .scalar .u8⟩]⟩]

/-- A reading with a not-a-number that has a payload of its own. -/
def readingValue : Value :=
  .struct [⟨"a", .scalar (.ofBits .f32 0x7f800001)⟩, ⟨"b", .scalar (.ofBits .u8 7)⟩]

/-- The same reading with its fields in the other order. -/
def readingShuffled : Value :=
  .struct [⟨"b", .scalar (.ofBits .u8 7)⟩, ⟨"a", .scalar (.ofBits .f32 0x7f800001)⟩]

end Samples

namespace ExternalCodec

/-- The program answers as the canonical codec does. -/
theorem canonical_canonicalCodec (wording : Bytes → String) :
    (Samples.canonicalCodec wording).Canonical wording := by
  intro input json request shape s hinput hrequest hcarried
  refine ⟨⟨.ofMs 20, .code 0, Utf8.encode (request.answer shape s (wording input)).compact, []⟩, ?_, rfl,
    rfl, hcarried⟩
  change Samples.answering wording input = _
  rw [Samples.answering, hinput, Option.bind_some, hrequest]

/-- A program with the canonical codec inside is transparent. For a valid shape, under any
selections, it encodes a value without repeated field names to exactly the bytes of the canonical
codec, and it decodes any bytes to exactly the value of the canonical codec, or fails if there is
none, in words of its own. -/
theorem transparent (c : ExternalCodec) (wording : Bytes → String) (shape : Shape)
    (choices : List (String × String)) (hcanonical : c.Canonical wording)
    (hvalid : shape.validate = .ok ()) :
    (∀ value bytes, value.DistinctFields → shape.encode value (.ofList choices) = .ok bytes →
      Carries wording shape (.ofList choices)
        (.encode (shape.jsonOfValue value (.ofList choices))) →
      (c.adapter.encode shape value (.ofList choices)).ending = .returned (.ok bytes)) ∧
    ∀ bytes, Carries wording shape (.ofList choices) (.decode bytes) →
      (c.adapter.decode shape bytes (.ofList choices)).ending =
        .returned ((shape.decode bytes (.ofList choices)).mapError fun _ =>
          .failed (wording ((CodecRequest.decode bytes).bytes shape (.ofList choices)))) := by
  have hs : Table.Ordered (Selections.ofList choices).entries := Table.ordered_ofList choices
  refine ⟨?_, ?_⟩
  · intro value bytes hdistinct hencode hcarries
    exact ending_encode hcanonical hs hvalid hdistinct hencode hcarries
  · intro bytes hcarries
    exact ending_decode hcanonical hs hvalid hcarries

/-- A shuffled reading is encoded through the program, its bytes are decoded with the very same
not-a-number, and a byte too few is a failure. -/
theorem transparent_reading :
    let c := Samples.canonicalCodec fun _ => "cut off"
    let s := Selections.ofList [("", "x")]
    c.Canonical (fun _ => "cut off") ∧ Samples.reading.validate = .ok () ∧
      Samples.readingShuffled.DistinctFields ∧
      Samples.reading.encode Samples.readingShuffled s = .ok [1, 0, 0x80, 0x7f, 7] ∧
      (c.adapter.encode Samples.reading Samples.readingShuffled s).ending =
        .returned (.ok [1, 0, 0x80, 0x7f, 7]) ∧
      (c.adapter.decode Samples.reading [1, 0, 0x80, 0x7f, 7] s).ending =
        .returned (.ok Samples.readingValue) ∧
      (c.adapter.decode Samples.reading [1, 0, 0x80, 0x7f] s).ending =
        .returned (.error (.failed "cut off")) := by
  intro c s
  have hcanonical : c.Canonical fun _ => "cut off" := canonical_canonicalCodec _
  have hvalid : Samples.reading.validate = .ok () := by decide
  have hdistinct : Samples.readingShuffled.DistinctFields := by decide
  have hencode : Samples.reading.encode Samples.readingShuffled s =
      .ok [1, 0, 0x80, 0x7f, 7] := by decide
  obtain ⟨hencodes, hdecodes⟩ :=
    transparent c (fun _ => "cut off") Samples.reading [("", "x")] hcanonical hvalid
  refine ⟨hcanonical, hvalid, hdistinct, hencode, hencodes _ _ hdistinct hencode ?_, ?_, ?_⟩
  · exact ⟨by decide +kernel, by decide +kernel⟩
  · exact hdecodes [1, 0, 0x80, 0x7f, 7] ⟨by decide +kernel, by decide +kernel⟩
  · exact hdecodes [1, 0, 0x80, 0x7f] ⟨by decide +kernel, by decide +kernel⟩

end ExternalCodec

end WireParity
