import WireParity.Proofs.Codec.RoundTrip
import WireParity.Proofs.Value.Leaves

/-!
# Encodings as tokens

Bytes that denote a value are its tokens and nothing else: no padding, no lengths, no names. What is
denoted stays so when its scalars are replaced by others of their kinds, since a kind fixes the width
and the shape asks for no more. An encoding therefore changes with the leaves of its value in place.
-/

namespace WireParity

/-- Replacing scalars keeps them of their kinds. -/
def KeepsKinds (f : Scalar → Scalar) : Prop := ∀ x, (f x).kind = x.kind

namespace Shape

variable {s : Selections} {path : String}

/-- Elements are denoted by their tokens, if each is. -/
private theorem DenotesItems.bytes_eq {elem : Shape}
    (helem : ∀ {path bytes value}, elem.Denotes s path bytes value →
      bytes = Token.wire value.tokens)
    {index : Nat} {bytes : Bytes} {items : List Value}
    (hitems : DenotesItems s elem path index bytes items) :
    bytes = Token.wire (Value.itemTokens items) := by
  induction items generalizing index bytes with
  | nil =>
    cases hitems
    rfl
  | cons item rest ih =>
    cases hitems with
    | cons hitem hrest =>
      rw [Value.itemTokens, Token.wire_append, ← helem hitem, ← ih hrest]

/-- Fields are denoted by their tokens, if each is. -/
private theorem DenotesFields.bytes_eq {fields : List (Named Shape)}
    (hfields : ∀ field ∈ fields, ∀ {path bytes value}, field.item.Denotes s path bytes value →
      bytes = Token.wire value.tokens)
    {bytes : Bytes} {values : List (Named Value)}
    (hvalues : DenotesFields s path fields bytes values) :
    bytes = Token.wire (Value.fieldTokens values) := by
  induction fields generalizing bytes values with
  | nil =>
    cases hvalues
    rfl
  | cons field rest ih =>
    rw [List.forall_mem_cons] at hfields
    cases hvalues with
    | cons hvalue hrest =>
      rw [Value.fieldTokens, Token.wire_append, ← hfields.1 hvalue, ← ih hfields.2 hrest]

/-- Bytes that denote a value are its tokens. -/
theorem Denotes.bytes_eq {shape : Shape} {bytes : Bytes} {value : Value}
    (hvalue : shape.Denotes s path bytes value) : bytes = Token.wire value.tokens := by
  induction shape generalizing path bytes value with
  | scalar kind =>
    cases hvalue with
    | scalar _ x => exact (Token.wire_singleton (.scalar x)).symm
  | array elem count ih =>
    cases hvalue with
    | array _ hitems => exact hitems.bytes_eq ih
  | struct fields ih =>
    cases hvalue with
    | struct hvalues => exact hvalues.bytes_eq fun field hfield => ih field hfield
  | enum variants ih =>
    cases hvalue with
    | bare => rfl
    | loaded hvariant hpayload =>
      rw [Value.tokens, Token.wire_tag_cons,
        ← ih _ (mem_of_variantTagged? hvariant) _ rfl hpayload]
  | union members ih =>
    cases hvalue with
    | union _ hmember hvalue => exact ih _ (mem_of_memberNamed? hmember) hvalue

variable {f : Scalar → Scalar}

/-- Elements are still denoted with other scalars, if each is. -/
private theorem DenotesItems.mapItems {elem : Shape}
    (helem : ∀ {path bytes value}, elem.Denotes s path bytes value →
      ∃ other, elem.Denotes s path other (value.mapScalars f))
    {index : Nat} {bytes : Bytes} {items : List Value}
    (hitems : DenotesItems s elem path index bytes items) :
    ∃ other, DenotesItems s elem path index other (Value.mapItems f items) := by
  induction items generalizing index bytes with
  | nil => exact ⟨[], .nil elem path index⟩
  | cons item rest ih =>
    cases hitems with
    | cons hitem hrest =>
      obtain ⟨front, hfront⟩ := helem hitem
      obtain ⟨back, hback⟩ := ih hrest
      exact ⟨front ++ back, .cons hfront hback⟩

/-- Fields are still denoted with other scalars, if each is. -/
private theorem DenotesFields.mapFields {fields : List (Named Shape)}
    (hfields : ∀ field ∈ fields, ∀ {path bytes value}, field.item.Denotes s path bytes value →
      ∃ other, field.item.Denotes s path other (value.mapScalars f))
    {bytes : Bytes} {values : List (Named Value)}
    (hvalues : DenotesFields s path fields bytes values) :
    ∃ other, DenotesFields s path fields other (Value.mapFields f values) := by
  induction fields generalizing bytes values with
  | nil =>
    cases hvalues
    exact ⟨[], .nil path⟩
  | cons field rest ih =>
    rw [List.forall_mem_cons] at hfields
    cases hvalues with
    | cons hvalue hrest =>
      obtain ⟨front, hfront⟩ := hfields.1 hvalue
      obtain ⟨back, hback⟩ := ih hfields.2 hrest
      exact ⟨front ++ back, .cons hfront hback⟩

/-- A denoted value with other scalars of the same kinds is still denoted. -/
theorem Denotes.exists_mapScalars (hf : KeepsKinds f) {shape : Shape} {bytes : Bytes}
    {value : Value} (hvalue : shape.Denotes s path bytes value) :
    ∃ other, shape.Denotes s path other (value.mapScalars f) := by
  induction shape generalizing path bytes value with
  | scalar kind =>
    cases hvalue with
    | scalar _ x => exact ⟨(f x).bytes, hf x ▸ .scalar path (f x)⟩
  | array elem count ih =>
    cases hvalue with
    | @array _ _ _ _ items hlength hitems =>
      obtain ⟨other, hother⟩ := hitems.mapItems ih
      refine ⟨other, .array ?_ hother⟩
      rw [Value.mapItems_eq, List.length_map, hlength]
  | struct fields ih =>
    cases hvalue with
    | struct hvalues =>
      obtain ⟨other, hother⟩ := hvalues.mapFields fun field hfield => ih field hfield
      exact ⟨other, .struct hother⟩
  | enum variants ih =>
    cases hvalue with
    | @bare _ _ _ tag hvariant => exact ⟨[tag], .bare hvariant⟩
    | @loaded _ _ _ tag _ _ _ hvariant hpayload =>
      obtain ⟨other, hother⟩ := ih _ (mem_of_variantTagged? hvariant) _ rfl hpayload
      exact ⟨tag :: other, .loaded hvariant hother⟩
  | union members ih =>
    cases hvalue with
    | union hselected hmember hvalue =>
      obtain ⟨other, hother⟩ := ih _ (mem_of_memberNamed? hmember) hvalue
      exact ⟨other, .union hselected hmember hother⟩

/-- With other scalars of the same kinds, a denoted value is denoted by its tokens with their scalars
replaced. -/
theorem Denotes.mapScalars (hf : KeepsKinds f) {shape : Shape} {bytes : Bytes} {value : Value}
    (hvalue : shape.Denotes s path bytes value) :
    shape.Denotes s path (Token.wire (value.tokens.map (Token.mapScalar f))) (value.mapScalars f) := by
  obtain ⟨other, hother⟩ := hvalue.exists_mapScalars hf
  rw [← Value.tokens_mapScalars, ← hother.bytes_eq]
  exact hother

/-- A value that repeats no field name is encoded as some bytes exactly if these denote a match
for it. -/
theorem encode_eq_ok_iff_denotes {shape : Shape} {value : Value} {bytes : Bytes}
    (hdistinct : value.DistinctFields) :
    shape.encode value s = .ok bytes ↔
      ∃ back, shape.Denotes s Path.root bytes back ∧ value.Matches back := by
  rw [encode_eq_ok_iff]
  refine ⟨writesMatches s shape _ value bytes hdistinct, fun h => ?_⟩
  obtain ⟨back, hback, hmatch⟩ := h
  exact writtenByMatches s shape _ bytes back value hback hmatch hdistinct

/-- Values that match, and repeat no field name, have the same encodings. -/
theorem encode_eq_ok_iff_of_matches {shape : Shape} {x y : Value} {bytes : Bytes}
    (hx : x.DistinctFields) (hy : y.DistinctFields) (hmatch : x.Matches y) :
    shape.encode x s = .ok bytes ↔ shape.encode y s = .ok bytes := by
  rw [encode_eq_ok_iff_denotes hx, encode_eq_ok_iff_denotes hy]
  refine exists_congr fun back => and_congr_right fun _ => ?_
  exact ⟨hmatch.symm.trans, hmatch.trans⟩

/-- Values with one encoding match. -/
theorem matches_of_encode_eq {shape : Shape} {x y : Value} {bytes : Bytes}
    (hx : x.DistinctFields) (hy : y.DistinctFields) (hxbytes : shape.encode x s = .ok bytes)
    (hybytes : shape.encode y s = .ok bytes) : x.Matches y := by
  obtain ⟨back, hback, hxback⟩ := (encode_eq_ok_iff_denotes hx).mp hxbytes
  obtain ⟨other, hother, hyother⟩ := (encode_eq_ok_iff_denotes hy).mp hybytes
  rw [hother.unique hback] at hyother
  exact hxback.trans hyother.symm

end Shape

end WireParity
