import WireParity.Json.Basic

/-!
# Records in JSON

A record is an object with known keys, or an array of its fields in order. In an object a known key
may stand once; unknown ones are ignored, unless the record is closed. An array may be cut off
where the fields that are missing have defaults; a slot says in which of the two ways its field is
missing, because a field that may be left out of an object may still be needed in an array.
-/

namespace WireParity

/-- What a record has for one of its fields. -/
inductive Slot
  | given (v : WrittenJson)
  | omitted
  | cut
deriving Repr

namespace Slot

/-- A field that has to be there. -/
def required {α : Type} (read : WrittenJson → Option α) : Slot → Option α
  | given v => read v
  | _ => none

/-- A field with a default. -/
def orDefault {α : Type} (default : α) (read : WrittenJson → Option α) : Slot → Option α
  | given v => read v
  | _ => some default

/-- What a null or a value says of a field that may have none. -/
def nullable {α : Type} (read : WrittenJson → Option α) : WrittenJson → Option (Option α)
  | .null => some none
  | v => (read v).map some

/-- A field that may have no value, and may be left out of an object. -/
def optional {α : Type} (read : WrittenJson → Option α) : Slot → Option (Option α)
  | given v => nullable read v
  | omitted => some none
  | cut => none

end Slot

namespace WrittenJson

/-- The slot of a key among members, `none` where the key is repeated. -/
def slot? (members : List (String × WrittenJson)) (key : String) : Option Slot :=
  match members.filter fun m => m.1 == key with
  | [] => some .omitted
  | [m] => some (.given m.2)
  | _ => none

/-- The slots of a record with the given fields. -/
def record? (closed : Bool) (keys : List String) : WrittenJson → Option (List Slot)
  | .object members =>
    if closed ∧ members.any fun m => !keys.contains m.1 then none
    else keys.mapM (slot? members)
  | .array items =>
    if keys.length < items.length then none
    else some (items.map .given ++ List.replicate (keys.length - items.length) .cut)
  | _ => none

/-- A choice between kinds: an object whose only key names the kind. -/
def choice? : WrittenJson → Option (String × WrittenJson)
  | .object [member] => some member
  | _ => none

/-- A text. -/
def text? : WrittenJson → Option String
  | .string s => some s
  | _ => none

/-- A truth value. -/
def bool? : WrittenJson → Option Bool
  | .bool b => some b
  | _ => none

/-- An integer from zero up to a bound. -/
def natBelow? (bound : Nat) : WrittenJson → Option Nat
  | .number (.int n) => if 0 ≤ n ∧ n < bound then some n.toNat else none
  | _ => none

/-- A list. -/
def list? {α : Type} (read : WrittenJson → Option α) : WrittenJson → Option (List α)
  | .array items => items.mapM read
  | _ => none

/-- A table; of two entries under one key the later counts. -/
def table? {α : Type} (read : WrittenJson → Option α) : WrittenJson → Option (Table α)
  | .object members =>
    (members.mapM fun m => (read m.2).map fun value => (m.1, value)).map Table.ofList
  | _ => none

mutual

/-- How deep arrays and objects are nested. -/
def depth : WrittenJson → Nat
  | .array items => itemsDepth items + 1
  | .object members => membersDepth members + 1
  | _ => 0

/-- The greatest depth of the items of an array. -/
def itemsDepth : List WrittenJson → Nat
  | [] => 0
  | item :: rest => max item.depth (itemsDepth rest)

/-- The greatest depth of the members of an object. -/
def membersDepth : List (String × WrittenJson) → Nat
  | [] => 0
  | (_, value) :: rest => max value.depth (membersDepth rest)

end

end WrittenJson

end WireParity
