import WireParity.Json.Printer
import WireParity.Json.Reader
import WireParity.Text.Utf8

/-!
# JSON carried as text

JSON is carried if its text, in octets, is read as the very same JSON. Not all of it is: a reader
gives up on what nests too deep, and what is unreadable has no text at all. Two values are the same
if they have the same members in the same written order, which can be decided.
-/

namespace WireParity.WrittenJson

mutual

/-- Whether two values are written in the same way. -/
def same : WrittenJson → WrittenJson → Bool
  | .null, .null => true
  | .bool b, .bool c => b == c
  | .number m, .number n => m = n
  | .string s, .string t => s == t
  | .array items, .array others => sameItems items others
  | .object members, .object others => sameMembers members others
  | .unreadable, .unreadable => true
  | _, _ => false

/-- Whether two arrays have the same items. -/
def sameItems : List WrittenJson → List WrittenJson → Bool
  | [], [] => true
  | item :: rest, other :: others => item.same other && sameItems rest others
  | _, _ => false

/-- Whether two objects have the same members in the same order. -/
def sameMembers : List (String × WrittenJson) → List (String × WrittenJson) → Bool
  | [], [] => true
  | (key, value) :: rest, (name, other) :: others =>
    key == name && value.same other && sameMembers rest others
  | _, _ => false

end

mutual

/-- Only equal values are the same. -/
theorem same_iff (json other : WrittenJson) : json.same other = true ↔ json = other := by
  match json with
  | .null => cases other <;> simp [same]
  | .bool b => cases other <;> simp [same]
  | .number n => cases other <;> simp [same]
  | .string s => cases other <;> simp [same]
  | .array items => cases other <;> simp [same, sameItems_iff items]
  | .object members => cases other <;> simp [same, sameMembers_iff members]
  | .unreadable => cases other <;> simp [same]

/-- Only equal lists of items are the same. -/
theorem sameItems_iff (items others : List WrittenJson) :
    sameItems items others = true ↔ items = others := by
  match items with
  | [] => cases others <;> simp [sameItems]
  | item :: rest => cases others <;> simp [sameItems, same_iff item, sameItems_iff rest]

/-- Only equal lists of members are the same. -/
theorem sameMembers_iff (members others : List (String × WrittenJson)) :
    sameMembers members others = true ↔ members = others := by
  match members with
  | [] => cases others <;> simp [sameMembers]
  | (key, value) :: rest =>
    cases others with
    | nil => simp [sameMembers]
    | cons other others =>
      simp [sameMembers, same_iff value, sameMembers_iff rest, Prod.ext_iff]

end

instance : DecidableEq WrittenJson := fun json other =>
  decidable_of_iff (json.same other = true) (same_iff json other)

/-- The JSON that octets stand for. -/
def ofBytes? (bytes : Bytes) : Option WrittenJson := (Utf8.text? bytes).bind Json.ofText?

/-- Nothing of the JSON is lost in its text. -/
def Carried (json : WrittenJson) : Prop := ofBytes? (Utf8.encode json.compact) = some json

instance (json : WrittenJson) : Decidable json.Carried :=
  inferInstanceAs (Decidable (ofBytes? (Utf8.encode json.compact) = some json))

end WireParity.WrittenJson
