import WireParity.Json.Token

/-!
# Reading JSON

Tokens are put together with a stack of the arrays and objects that are still open. Containers may
nest 127 deep; one that lies deeper is read to its end and is then unreadable.
-/

namespace WireParity.Json

/-- How deep arrays and objects may nest. -/
def maxDepth : Nat := 127

/-- An open container: what it holds so far, last one first. An object's frame has the key whose
value is being read; keys and members are `none` once a key has been unreadable. -/
inductive Frame
  | array (items : List WrittenJson)
  | object (members : Option (List (String × WrittenJson))) (key : Option String)
deriving Repr

/-- What may come next: a value, the first item or the end of an array, the first key or the end of
an object, another key, a colon, or what follows a value. -/
inductive Expect
  | value
  | firstItem
  | firstKey (members : Option (List (String × WrittenJson)))
  | nextKey (members : Option (List (String × WrittenJson)))
  | colon (members : Option (List (String × WrittenJson))) (key : Option String)
  | afterValue
  | ended (v : WrittenJson)
deriving Repr

/-- A reader between two tokens. -/
structure Reading where
  expect : Expect
  stack : List Frame
deriving Repr

namespace Reading

/-- A finished value goes into the innermost open container. -/
def finish (v : WrittenJson) : List Frame → Reading
  | [] => ⟨.ended v, []⟩
  | .array items :: stack => ⟨.afterValue, .array (v :: items) :: stack⟩
  | .object members key :: stack =>
    let more := members.bind fun ms => key.map fun k => (k, v) :: ms
    ⟨.afterValue, .object more none :: stack⟩

/-- The value of a container that closes over the given outer ones. -/
def close (v : WrittenJson) (outer : List Frame) : Reading :=
  finish (if outer.length < maxDepth then v else .unreadable) outer

/-- A written object from its members, last one first. -/
def objectOf (members : Option (List (String × WrittenJson))) : WrittenJson :=
  match members with
  | some ms => .object ms.reverse
  | none => .unreadable

/-- A token where a value may begin. -/
def valueToken? (token : Token) (stack : List Frame) : Option Reading :=
  match token with
  | .null => some (finish .null stack)
  | .bool b => some (finish (.bool b) stack)
  | .number n => some (finish (n.elim .unreadable .number) stack)
  | .string s => some (finish (s.elim .unreadable .string) stack)
  | .openArray => some ⟨.firstItem, .array [] :: stack⟩
  | .openObject => some ⟨.firstKey (some []), stack⟩
  | _ => none

/-- The reader after one more token. -/
def step? : Reading → Token → Option Reading
  | ⟨.value, stack⟩, token => valueToken? token stack
  | ⟨.firstItem, .array _ :: outer⟩, .closeArray => some (close (.array []) outer)
  | ⟨.firstItem, stack⟩, token => valueToken? token stack
  | ⟨.firstKey members, outer⟩, .closeObject => some (close (objectOf members) outer)
  | ⟨.firstKey members, outer⟩, .string key => some ⟨.colon members key, outer⟩
  | ⟨.nextKey members, outer⟩, .string key => some ⟨.colon members key, outer⟩
  | ⟨.colon members key, outer⟩, .colon => some ⟨.value, .object members key :: outer⟩
  | ⟨.afterValue, .array items :: outer⟩, .comma => some ⟨.value, .array items :: outer⟩
  | ⟨.afterValue, .array items :: outer⟩, .closeArray => some (close (.array items.reverse) outer)
  | ⟨.afterValue, .object members _ :: outer⟩, .comma => some ⟨.nextKey members, outer⟩
  | ⟨.afterValue, .object members _ :: outer⟩, .closeObject => some (close (objectOf members) outer)
  | _, _ => none

/-- The value that the rest of the tokens complete. -/
def run? (reading : Reading) : List Token → Option WrittenJson
  | [] => match reading.expect with
    | .ended v => some v
    | _ => none
  | token :: rest =>
    match reading.step? token with
    | none => none
    | some next => next.run? rest

end Reading

/-- The written value of a text. -/
def ofText? (text : String) : Option WrittenJson :=
  (tokens? text).bind (Reading.run? ⟨.value, []⟩)

/-- The value that a text denotes. -/
def parse? (text : String) : Option Json := (ofText? text).bind WrittenJson.settle

end WireParity.Json
