/-!
# Tables keyed by text

A table lists its entries in ascending order of their keys, each key once. `insert` keeps both
properties, and a later entry for a key takes the place of an earlier one.
-/

namespace WireParity

/-- Entries under textual keys. -/
abbrev Table (α : Type) := List (String × α)

namespace Table

variable {α β : Type}

/-- The first entry under a key. -/
def find? (key : String) : Table α → Option α
  | [] => none
  | (name, value) :: rest => if name = key then some value else find? key rest

/-- Puts an entry in its place, over an earlier one with the same key. -/
def insert (key : String) (value : α) : Table α → Table α
  | [] => [(key, value)]
  | (name, old) :: rest =>
    if key = name then (key, value) :: rest
    else if key < name then (key, value) :: (name, old) :: rest
    else (name, old) :: insert key value rest

/-- Adds entries one after another. -/
def insertAll (table : Table α) : List (String × α) → Table α
  | [] => table
  | (key, value) :: rest => insertAll (insert key value table) rest

/-- The table of a list of entries; of two with one key the later counts. -/
def ofList (entries : List (String × α)) : Table α := insertAll [] entries

/-- The keys in order. -/
def keys (table : Table α) : List String := table.map Prod.fst

/-- The table holds an entry under the key. -/
def contains (key : String) (table : Table α) : Bool := (find? key table).isSome

/-- What was put under a key is found there. -/
theorem find?_insert_self (key : String) (value : α) (table : Table α) :
    find? key (insert key value table) = some value := by
  induction table with
  | nil => simp [insert, find?]
  | cons entry rest ih =>
    obtain ⟨name, old⟩ := entry
    by_cases same : key = name
    · simp [insert, find?, same]
    · by_cases before : key < name
      · simp [insert, find?, same, before]
      · simp [insert, find?, same, before, ih, Ne.symm same]

/-- Other keys keep their entries. -/
theorem find?_insert_of_ne {key other : String} (ne : other ≠ key) (value : α) (table : Table α) :
    find? other (insert key value table) = find? other table := by
  induction table with
  | nil => simp [insert, find?, Ne.symm ne]
  | cons entry rest ih =>
    obtain ⟨name, old⟩ := entry
    by_cases same : key = name
    · subst same
      simp [insert, find?, Ne.symm ne]
    · by_cases before : key < name
      · simp [insert, find?, same, before, Ne.symm ne]
      · simp [insert, find?, same, before, ih]

end Table

end WireParity
