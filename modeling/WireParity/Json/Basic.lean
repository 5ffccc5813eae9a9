import WireParity.Table

/-!
# JSON values

`Json` is a value: an object is a table, so the order in which its members were written and
members that were overwritten have left no trace. `WrittenJson` is a value as it stands in a text:
members in written order, repeated keys and all. A written value may be *unreadable*: its text is
well formed, but it denotes nothing, because a number is too large, a surrogate stands alone, or
arrays and objects nest too deep. Readers that skip a value do not mind. `settle` turns what is
written into the value it denotes.
-/

namespace WireParity

/-- A number: an integer, or the bit pattern of a finite double. -/
inductive JsonNumber
  | int (n : Int)
  | float (bits : UInt64)
deriving Repr, DecidableEq

/-- A JSON value. -/
inductive Json
  | null
  | bool (b : Bool)
  | number (n : JsonNumber)
  | string (s : String)
  | array (items : List Json)
  | object (members : List (String × Json))
deriving Repr, Inhabited

/-- A JSON value as it is written. -/
inductive WrittenJson
  | null
  | bool (b : Bool)
  | number (n : JsonNumber)
  | string (s : String)
  | array (items : List WrittenJson)
  | object (members : List (String × WrittenJson))
  | unreadable
deriving Repr

namespace Json

/-- An integer. -/
def int (n : Int) : Json := .number (.int n)

/-- A natural number. -/
def nat (n : Nat) : Json := .int n

/-- An object of the given members; of two with one key the later counts. -/
def ofMembers (members : List (String × Json)) : Json := .object (Table.ofList members)

/-- An array of texts. -/
def texts (items : List String) : Json := .array (items.map .string)

/-- An object of texts. -/
def ofTexts (table : Table String) : Json :=
  .object (table.map fun entry => (entry.1, .string entry.2))

/-- The word for the shape of a value. -/
def kind : Json → String
  | .null => "null"
  | .bool _ => "bool"
  | .number _ => "number"
  | .string _ => "string"
  | .array _ => "array"
  | .object _ => "object"

/-- The value is null. -/
def isNull : Json → Bool
  | .null => true
  | _ => false

/-- The member of an object under a key. -/
def member? (key : String) : Json → Option Json
  | .object members => Table.find? key members
  | _ => none

mutual

/-- The value, written out. -/
def written : Json → WrittenJson
  | .null => .null
  | .bool b => .bool b
  | .number n => .number n
  | .string s => .string s
  | .array items => .array (writtenItems items)
  | .object members => .object (writtenMembers members)

/-- The items of an array, written out. -/
def writtenItems : List Json → List WrittenJson
  | [] => []
  | item :: rest => item.written :: writtenItems rest

/-- The members of an object, written out. -/
def writtenMembers : List (String × Json) → List (String × WrittenJson)
  | [] => []
  | (key, value) :: rest => (key, value.written) :: writtenMembers rest

end

end Json

namespace WrittenJson

mutual

/-- The value that is denoted, if all of it is readable. -/
def settle : WrittenJson → Option Json
  | .null => some .null
  | .bool b => some (.bool b)
  | .number n => some (.number n)
  | .string s => some (.string s)
  | .array items => (settleItems items).map .array
  | .object members => (settleMembers members).map Json.ofMembers
  | .unreadable => none

/-- The values of the items of an array. -/
def settleItems : List WrittenJson → Option (List Json)
  | [] => some []
  | item :: rest => item.settle.bind fun value => (settleItems rest).map (value :: ·)

/-- The values of the members of an object, in written order. -/
def settleMembers : List (String × WrittenJson) → Option (List (String × Json))
  | [] => some []
  | (key, value) :: rest =>
    value.settle.bind fun settled => (settleMembers rest).map ((key, settled) :: ·)

end

end WrittenJson

end WireParity
