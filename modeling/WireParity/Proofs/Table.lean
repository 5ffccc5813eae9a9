import WireParity.Table
import Mathlib.Data.List.Nodup

/-!
# Tables built from lists of entries

A list of entries with distinct keys is kept in full: every entry is found under its key, and there
are no other keys. What order the table puts them in does not matter for either.
-/

namespace WireParity.Table

variable {α : Type} {key : String} {value : α} {table : Table α} {entries : List (String × α)}

/-- What is found is an entry of the table. -/
theorem mem_of_find? (h : find? key table = some value) : (key, value) ∈ table := by
  induction table with
  | nil => cases h
  | cons entry table ih =>
    obtain ⟨name, item⟩ := entry
    rw [find?] at h
    by_cases hname : name = key
    · rw [if_pos hname, Option.some.injEq] at h
      rw [hname, h]
      exact List.mem_cons_self
    · rw [if_neg hname] at h
      exact List.mem_cons_of_mem _ (ih h)

/-- What is found is found under a key of the table. -/
theorem mem_keys_of_find? (h : find? key table = some value) : key ∈ keys table :=
  List.mem_map_of_mem (mem_of_find? h)

/-- Under every key of a table something is found. -/
theorem exists_find?_of_mem_keys (h : key ∈ keys table) : ∃ value, find? key table = some value := by
  induction table with
  | nil => cases h
  | cons entry table ih =>
    obtain ⟨name, item⟩ := entry
    rw [find?]
    by_cases hname : name = key
    · exact ⟨item, if_pos hname⟩
    · rw [if_neg hname]
      exact ih ((List.mem_cons.mp h).resolve_left (Ne.symm hname))

/-- Inserting adds at most the entry. -/
theorem mem_of_mem_insert {entry : String × α} (h : entry ∈ insert key value table) :
    entry = (key, value) ∨ entry ∈ table := by
  induction table with
  | nil => exact Or.inl (List.mem_singleton.mp h)
  | cons first table ih =>
    obtain ⟨name, old⟩ := first
    unfold insert at h
    split at h
    · rcases List.mem_cons.mp h with h | h
      · exact Or.inl h
      · exact Or.inr (List.mem_cons_of_mem _ h)
    · split at h
      · exact List.mem_cons.mp h
      · rcases List.mem_cons.mp h with h | h
        · exact Or.inr (List.mem_cons.mpr (Or.inl h))
        · exact (ih h).imp_right (List.mem_cons_of_mem _)

/-- Inserting adds the key to the keys. -/
theorem mem_keys_insert {name : String} :
    name ∈ keys (insert key value table) ↔ name = key ∨ name ∈ keys table := by
  induction table with
  | nil => simp [insert, keys]
  | cons entry table ih =>
    obtain ⟨other, old⟩ := entry
    unfold insert
    split
    · rename_i hsame
      subst hsame
      simp [keys]
    · split
      · simp [keys]
      · simp only [keys, List.map_cons, List.mem_cons] at ih ⊢
        rw [ih, or_left_comm]

/-- Adding entries adds at most these. -/
theorem mem_of_mem_insertAll {entry : String × α} (h : entry ∈ insertAll table entries) :
    entry ∈ table ∨ entry ∈ entries := by
  induction entries generalizing table with
  | nil => exact Or.inl h
  | cons first entries ih =>
    obtain ⟨name, item⟩ := first
    rcases ih h with h | h
    · rcases mem_of_mem_insert h with rfl | h
      · exact Or.inr List.mem_cons_self
      · exact Or.inl h
    · exact Or.inr (List.mem_cons_of_mem _ h)

/-- A table of entries has no other entries. -/
theorem mem_of_mem_ofList {entry : String × α} (h : entry ∈ ofList entries) : entry ∈ entries :=
  (mem_of_mem_insertAll h).resolve_left List.not_mem_nil

/-- A table of entries has no other keys. -/
theorem mem_of_mem_keys_ofList (h : key ∈ keys (ofList entries)) : key ∈ entries.map Prod.fst := by
  obtain ⟨entry, hentry, rfl⟩ := List.mem_map.mp h
  exact List.mem_map_of_mem (mem_of_mem_ofList hentry)

/-- Where each entry is made into something else, what is found is what was made. -/
theorem find?_map {β : Type} (key : String) (f : α → β) (table : Table α) :
    find? key (table.map fun entry => (entry.1, f entry.2)) = (find? key table).map f := by
  induction table with
  | nil => rfl
  | cons entry table ih =>
    obtain ⟨other, item⟩ := entry
    rw [List.map_cons, find?, find?, ih]
    by_cases hsame : other = key
    · rw [if_pos hsame, if_pos hsame, Option.map_some]
    · rw [if_neg hsame, if_neg hsame]

/-- Adding entries under other keys does not change what is found. -/
theorem find?_insertAll_of_notMem (h : key ∉ entries.map Prod.fst) :
    find? key (insertAll table entries) = find? key table := by
  induction entries generalizing table with
  | nil => rfl
  | cons entry entries ih =>
    obtain ⟨name, item⟩ := entry
    rw [List.map_cons, List.mem_cons, not_or] at h
    rw [insertAll, ih h.2, find?_insert_of_ne h.1]

/-- Of entries with distinct keys, each is found. -/
theorem find?_insertAll_of_mem (hdistinct : (entries.map Prod.fst).Nodup)
    (h : (key, value) ∈ entries) : find? key (insertAll table entries) = some value := by
  induction entries generalizing table with
  | nil => cases h
  | cons entry entries ih =>
    rw [List.map_cons, List.nodup_cons] at hdistinct
    rcases List.mem_cons.mp h with rfl | h
    · rw [insertAll, find?_insertAll_of_notMem hdistinct.1, find?_insert_self]
    · exact ih hdistinct.2 h

/-- A table of entries with distinct keys holds each of them. -/
theorem find?_ofList_of_mem (hdistinct : (entries.map Prod.fst).Nodup)
    (h : (key, value) ∈ entries) : find? key (ofList entries) = some value :=
  find?_insertAll_of_mem hdistinct h

/-- A table holds nothing under a key that no entry has. -/
theorem find?_ofList_of_notMem (h : key ∉ entries.map Prod.fst) :
    find? key (ofList entries) = none :=
  find?_insertAll_of_notMem h

/-- The keys ascend, and each is there once. -/
def Ordered (table : Table α) : Prop := (keys table).Pairwise (· < ·)

/-- An entry before others is in order with them if its key comes before theirs. -/
theorem ordered_cons {entry : String × α} :
    Ordered (entry :: table) ↔ (∀ other ∈ table, entry.1 < other.1) ∧ Ordered table := by
  rw [Ordered, keys, List.map_cons, List.pairwise_cons, List.forall_mem_map]
  rfl

/-- Inserting keeps a table in order. -/
theorem Ordered.insert (h : Ordered table) : Ordered (insert key value table) := by
  induction table with
  | nil => exact List.pairwise_singleton ..
  | cons entry table ih =>
    obtain ⟨name, old⟩ := entry
    rw [ordered_cons] at h
    unfold Table.insert
    split
    · rename_i hsame
      exact ordered_cons.mpr ⟨hsame ▸ h.1, h.2⟩
    · rename_i hne
      split
      · rename_i hbefore
        refine ordered_cons.mpr ⟨?_, ordered_cons.mpr h⟩
        exact List.forall_mem_cons.mpr ⟨hbefore, fun other hother =>
          String.lt_trans hbefore (h.1 other hother)⟩
      · rename_i hafter
        refine ordered_cons.mpr ⟨fun other hother => ?_, ih h.2⟩
        rcases mem_of_mem_insert hother with rfl | hother
        · exact Std.lt_of_le_of_ne (String.not_lt.mp hafter) (Ne.symm hne)
        · exact h.1 other hother

/-- Adding entries keeps a table in order. -/
theorem Ordered.insertAll (h : Ordered table) : Ordered (insertAll table entries) := by
  induction entries generalizing table with
  | nil => exact h
  | cons entry entries ih => exact ih h.insert

/-- A table of entries is in order. -/
theorem ordered_ofList (entries : List (String × α)) : Ordered (ofList entries) :=
  Ordered.insertAll List.Pairwise.nil

/-- An entry whose key comes last is put at the end. -/
theorem insert_eq_append (h : ∀ other ∈ table, other.1 < key) :
    insert key value table = table ++ [(key, value)] := by
  induction table with
  | nil => rfl
  | cons entry table ih =>
    obtain ⟨name, old⟩ := entry
    rw [List.forall_mem_cons] at h
    have hne : key ≠ name := fun hsame => String.lt_irrefl key (hsame ▸ h.1)
    rw [insert, if_neg hne, if_neg (String.lt_asymm h.1), ih h.2, List.cons_append]

/-- Entries that are in order after those of a table are put after them. -/
theorem insertAll_eq_append (h : Ordered (table ++ entries)) :
    insertAll table entries = table ++ entries := by
  induction entries generalizing table with
  | nil => exact (List.append_nil table).symm
  | cons entry entries ih =>
    obtain ⟨name, item⟩ := entry
    have hlast : ∀ other ∈ table, other.1 < name := by
      intro other hother
      rw [Ordered, keys, List.map_append, List.pairwise_append] at h
      exact h.2.2 other.1 (List.mem_map_of_mem hother) name (List.mem_map_of_mem List.mem_cons_self)
    rw [List.append_cons] at h
    rw [insertAll, insert_eq_append hlast, ih h, ← List.append_cons]

/-- Entries that are in order are a table as they are. -/
theorem ofList_eq_self (h : Ordered table) : ofList table = table := insertAll_eq_append h

end WireParity.Table
