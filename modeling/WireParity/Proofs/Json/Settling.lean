import WireParity.Json.Basic
import WireParity.Proofs.Table

/-!
# Values that are written and settled again

To settle what is written puts the members of each object in order. A value all of whose objects are
in order therefore comes back as it was. Objects that are made from members are in order, whatever
order the members are given in.
-/

namespace WireParity.Json

/-- All objects in a value have their members in order. -/
inductive Ordered : Json → Prop
  | null : Ordered .null
  | bool (b : Bool) : Ordered (.bool b)
  | number (n : JsonNumber) : Ordered (.number n)
  | string (s : String) : Ordered (.string s)
  | array {items : List Json} : (∀ item ∈ items, Ordered item) → Ordered (.array items)
  | object {members : Table Json} : Table.Ordered members →
      (∀ member ∈ members, Ordered member.2) → Ordered (.object members)

/-- Items settle one by one. -/
theorem settleItems_writtenItems {items : List Json}
    (hitems : ∀ item ∈ items, item.written.settle = some item) :
    WrittenJson.settleItems (writtenItems items) = some items := by
  induction items with
  | nil => rfl
  | cons item items ih =>
    rw [List.forall_mem_cons] at hitems
    rw [writtenItems, WrittenJson.settleItems, hitems.1, ih hitems.2]
    rfl

/-- Members settle one by one. -/
theorem settleMembers_writtenMembers {members : List (String × Json)}
    (hmembers : ∀ member ∈ members, member.2.written.settle = some member.2) :
    WrittenJson.settleMembers (writtenMembers members) = some members := by
  induction members with
  | nil => rfl
  | cons member members ih =>
    obtain ⟨key, value⟩ := member
    rw [List.forall_mem_cons] at hmembers
    rw [writtenMembers, WrittenJson.settleMembers, hmembers.1, ih hmembers.2]
    rfl

/-- What is written for a value in order denotes that value. -/
theorem settle_written {json : Json} (h : json.Ordered) : json.written.settle = some json := by
  induction h with
  | null => rfl
  | bool b => rfl
  | number n => rfl
  | string s => rfl
  | array _ ih =>
    rw [written, WrittenJson.settle, settleItems_writtenItems ih]
    rfl
  | object hordered _ ih =>
    rw [written, WrittenJson.settle, settleMembers_writtenMembers ih, Option.map_some, ofMembers,
      Table.ofList_eq_self hordered]

/-- An object of members in order is in order. -/
theorem ordered_ofMembers {members : List (String × Json)}
    (hmembers : ∀ member ∈ members, member.2.Ordered) : (ofMembers members).Ordered :=
  .object (Table.ordered_ofList members) fun member hmember =>
    hmembers member (Table.mem_of_mem_ofList hmember)

end WireParity.Json
