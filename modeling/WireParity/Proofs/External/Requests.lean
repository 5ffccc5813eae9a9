import WireParity.External.Exchange
import WireParity.Proofs.Bytes.Hex
import WireParity.Proofs.Json.Settling
import WireParity.Proofs.Shape.Json

/-!
# Requests read back

A program reads its request as a record: what to do, a shape, selections, and a value in JSON or
bytes in hexadecimal. Each of these has a written form of its own, and each form is read back as
what was written. Selections and the objects of a value have to be in order for this, because a
reader puts them in order.
-/

namespace WireParity.CodecRequest

/-- The request that JSON stands for, with its shape and its selections. -/
def ofJson? (json : WrittenJson) : Option (CodecRequest × Shape × Selections) :=
  match json.record? false ["op", "type", "value", "hex", "variants"] with
  | some [op, shape, value, hex, variants] => do
    let op ← op.required WrittenJson.text?
    let shape ← shape.required Shape.ofJson?
    let choices ← variants.required (WrittenJson.table? WrittenJson.text?)
    if op = "encode" then
      let value ← value.required WrittenJson.settle
      return (.encode value, shape, ⟨choices⟩)
    else if op = "decode" then
      let text ← hex.required WrittenJson.text?
      let bytes ← (Hex.decode text).toOption
      return (.decode bytes, shape, ⟨choices⟩)
    else none
  | _ => none

variable {s : Selections}

/-- Choices are read one by one. -/
theorem mapM_choices (choices : List (String × String)) :
    (choices.map fun choice => (choice.1, WrittenJson.string choice.2)).mapM
        (fun m => (WrittenJson.text? m.2).map fun name => (m.1, name)) = some choices := by
  induction choices with
  | nil => rfl
  | cons choice choices ih =>
    rw [List.map_cons, List.mapM_cons, ih]
    rfl

/-- Selections in order of their paths are read back. -/
theorem table?_choices (hs : Table.Ordered s.entries) :
    WrittenJson.table? WrittenJson.text? (.object (s.toList.map fun choice =>
      (choice.1, WrittenJson.string choice.2))) = some s.entries := by
  rw [WrittenJson.table?, mapM_choices, Option.map_some, Selections.toList, Table.ofList_eq_self hs]

/-- A request to encode is read back. -/
theorem ofJson?_encode (shape : Shape) (hs : Table.Ordered s.entries) {value : Json}
    (hvalue : value.Ordered) :
    ofJson? ((encode value).written shape s) = some (encode value, shape, s) := by
  have hslots : WrittenJson.record? false ["op", "type", "value", "hex", "variants"]
      ((encode value).written shape s) =
        some [.given (.string "encode"), .given shape.written, .given value.written, .omitted,
          .given (.object (s.toList.map fun choice => (choice.1, .string choice.2)))] := rfl
  rw [ofJson?, hslots]
  simp only [Slot.required, WrittenJson.text?, Shape.ofJson?_written, table?_choices hs,
    Json.settle_written hvalue, Option.bind_eq_bind, Option.bind_some, if_true, Option.pure_def]

/-- A request to decode is read back. -/
theorem ofJson?_decode (shape : Shape) (hs : Table.Ordered s.entries) (bytes : Bytes) :
    ofJson? ((decode bytes).written shape s) = some (decode bytes, shape, s) := by
  have hslots : WrittenJson.record? false ["op", "type", "value", "hex", "variants"]
      ((decode bytes).written shape s) =
        some [.given (.string "decode"), .given shape.written, .omitted,
          .given (.string (Hex.encode bytes)),
          .given (.object (s.toList.map fun choice => (choice.1, .string choice.2)))] := rfl
  have hop : ¬"decode" = "encode" := by decide
  rw [ofJson?, hslots]
  simp only [Slot.required, WrittenJson.text?, Shape.ofJson?_written, table?_choices hs,
    Hex.decode_encode, Except.toOption, Option.bind_eq_bind, Option.bind_some, if_neg hop, if_true,
    Option.pure_def]

end WireParity.CodecRequest
