import WireParity.Shape.Basic
import Mathlib.Data.List.Nodup

/-!
# Finding variants and members

A lookup answers with the first part that fits, so what it finds is declared and fits. Where the
keys are distinct, every declared part is the one that is found for its key.
-/

namespace WireParity.Shape

/-- With distinct keys, the first entry with a member's key is that member. -/
theorem find?_key_eq_some {α κ : Type} [BEq κ] [LawfulBEq κ] (key : α → κ) {entries : List α}
    (hdistinct : (entries.map key).Nodup) {entry : α} (hentry : entry ∈ entries) :
    entries.find? (fun other => key other == key entry) = some entry := by
  induction entries with
  | nil => cases hentry
  | cons first rest ih =>
    rw [List.map_cons, List.nodup_cons] at hdistinct
    rcases List.mem_cons.mp hentry with rfl | hrest
    · rw [List.find?_cons, beq_self_eq_true]
    · have hne : (key first == key entry) = false := by
        apply beq_eq_false_iff_ne.mpr
        intro hsame
        exact hdistinct.1 (hsame ▸ List.mem_map_of_mem hrest)
      rw [List.find?_cons, hne]
      exact ih hdistinct.2 hrest

/-- A search that stops at the first entry with a key answers as a lookup of the key does. -/
theorem search_eq_find? {α β κ : Type} [DecidableEq κ] {key : α → κ} {wanted : κ} {missing : β}
    {found : α → β} (search : List α → β) (hnil : search [] = missing)
    (hcons : ∀ entry rest, search (entry :: rest) =
      if key entry = wanted then found entry else search rest)
    (entries : List α) :
    search entries = (entries.find? fun entry => key entry == wanted).elim missing found := by
  induction entries with
  | nil => exact hnil
  | cons entry rest ih =>
    rw [hcons, List.find?_cons]
    by_cases hkey : key entry = wanted
    · rw [if_pos hkey, beq_iff_eq.mpr hkey]
      rfl
    · rw [if_neg hkey, beq_eq_false_iff_ne.mpr hkey]
      exact ih

variable {variants : List (Variant Shape)} {members : List (Named Shape)}

/-- The variant found for a tag is declared. -/
theorem mem_of_variantTagged? {tag : UInt8} {variant : Variant Shape}
    (hfound : (Shape.enum variants).variantTagged? tag = some variant) : variant ∈ variants :=
  List.mem_of_find?_eq_some hfound

/-- The variant found for a tag has it. -/
theorem tag_of_variantTagged? {tag : UInt8} {variant : Variant Shape}
    (hfound : (Shape.enum variants).variantTagged? tag = some variant) : variant.tag = tag := by
  have hfits := List.find?_some (p := fun v : Variant Shape => v.tag == tag) hfound
  exact beq_iff_eq.mp hfits

/-- The variant found for a name has it. -/
theorem name_of_variantNamed? {name : String} {variant : Variant Shape}
    (hfound : (Shape.enum variants).variantNamed? name = some variant) : variant.name = name := by
  have hfits := List.find?_some (p := fun v : Variant Shape => v.name == name) hfound
  exact beq_iff_eq.mp hfits

/-- A variant is found under every name that is declared. -/
theorem exists_variantNamed? {name : String} (hname : name ∈ variants.map Variant.name) :
    ∃ variant, (Shape.enum variants).variantNamed? name = some variant := by
  obtain ⟨variant, hvariant, rfl⟩ := List.mem_map.mp hname
  rw [← Option.isSome_iff_exists, variantNamed?, List.find?_isSome]
  exact ⟨variant, hvariant, beq_self_eq_true _⟩

/-- A member is found under every name that is declared. -/
theorem exists_memberNamed? {name : String} (hname : name ∈ members.map Named.name) :
    ∃ member, (Shape.union members).memberNamed? name = some member := by
  obtain ⟨member, hmember, rfl⟩ := List.mem_map.mp hname
  rw [← Option.isSome_iff_exists, memberNamed?, List.find?_isSome]
  exact ⟨member, hmember, beq_self_eq_true _⟩

/-- The member found for a name is declared. -/
theorem mem_of_memberNamed? {name : String} {member : Named Shape}
    (hfound : (Shape.union members).memberNamed? name = some member) : member ∈ members :=
  List.mem_of_find?_eq_some hfound

/-- The member found for a name has it. -/
theorem name_of_memberNamed? {name : String} {member : Named Shape}
    (hfound : (Shape.union members).memberNamed? name = some member) : member.name = name := by
  have hfits := List.find?_some (p := fun m : Named Shape => m.name == name) hfound
  exact beq_iff_eq.mp hfits

/-- With distinct tags, every variant is found for its own tag. -/
theorem variantTagged?_of_mem (hdistinct : (variants.map Variant.tag).Nodup)
    {variant : Variant Shape} (hvariant : variant ∈ variants) :
    (Shape.enum variants).variantTagged? variant.tag = some variant :=
  find?_key_eq_some Variant.tag hdistinct hvariant

/-- With distinct names, every variant is found for its own name. -/
theorem variantNamed?_of_mem (hdistinct : (variants.map Variant.name).Nodup)
    {variant : Variant Shape} (hvariant : variant ∈ variants) :
    (Shape.enum variants).variantNamed? variant.name = some variant :=
  find?_key_eq_some Variant.name hdistinct hvariant

end WireParity.Shape
