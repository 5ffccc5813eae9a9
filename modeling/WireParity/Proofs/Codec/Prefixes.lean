import WireParity.Proofs.Codec.RoundTrip

/-!
# Prefixes of what is decoded

A decoder reads on as the bytes tell it to, so how many it takes is settled by the bytes that it
takes: they can be followed by anything, and if any of them are missing at the end, the reason given
is that. No other fault can come first, since whatever is read before the end of the input is read
as it was in the whole.

This is shown for bytes that denote a value, by induction over the shape. What one step reads and
what is read after it lie back to back, so bytes that stop early stop within the first part, which
is then refused itself, or hold the first part whole and stop within the others. Every encoding
denotes a value, even of a struct that repeats a field, and so none goes on where another has ended.
-/

namespace WireParity

/-- Bytes stop before others do, which begin with them. -/
def StopsShort (part whole : Bytes) : Prop := ∃ byte missing, whole = part ++ byte :: missing

/-- An outcome is that the bytes came to an end before something that was to be read. -/
def EndsTruncated {α : Type} (outcome : Except CodecError α) : Prop :=
  ∃ path needed available, available < needed ∧
    outcome = .error ⟨path, .truncatedInput needed available⟩

section Stopping

variable {part front back : Bytes}

/-- Bytes that stop short are fewer. -/
theorem StopsShort.length_lt (hpart : StopsShort part front) : part.length < front.length := by
  obtain ⟨byte, missing, rfl⟩ := hpart
  rw [List.length_append, List.length_cons]
  omega

/-- The first bytes stop short of all, if they are fewer. -/
theorem stopsShort_take {count : Nat} (hcount : count < front.length) :
    StopsShort (front.take count) front := by
  refine ⟨front[count], front.drop (count + 1), ?_⟩
  rw [List.getElem_cons_drop, List.take_append_drop]

/-- Bytes that stop short of two parts stop short of the first, or hold it and stop short of the
second. -/
theorem StopsShort.of_append (hpart : StopsShort part (front ++ back)) :
    StopsShort part front ∨ ∃ rest, part = front ++ rest ∧ StopsShort rest back := by
  obtain ⟨byte, missing, hwhole⟩ := hpart
  rcases List.append_eq_append_iff.mp hwhole with ⟨rest, rfl, hback⟩ | ⟨others, hfront, hothers⟩
  · exact .inr ⟨rest, rfl, byte, missing, hback⟩
  · cases others with
    | nil =>
      refine .inr ⟨[], ?_, byte, missing, hothers.symm⟩
      rw [hfront, List.append_nil, List.append_nil]
    | cons first others =>
      rw [List.cons_append, List.cons.injEq] at hothers
      exact .inl ⟨first, others, hfront⟩

end Stopping

section Chaining

variable {α β : Type}

/-- A chain of steps ends where its first step does. -/
theorem EndsTruncated.bind {first : Except CodecError α} {next : α → Except CodecError β}
    (hfirst : EndsTruncated first) : EndsTruncated (first >>= next) := by
  obtain ⟨path, needed, available, hshort, rfl⟩ := hfirst
  exact ⟨path, needed, available, hshort, rfl⟩

/-- What is made of an outcome does not change that it ended. -/
theorem EndsTruncated.map {outcome : Except CodecError α} {f : α → β}
    (houtcome : EndsTruncated outcome) : EndsTruncated (outcome.map f) := by
  obtain ⟨path, needed, available, hshort, rfl⟩ := houtcome
  exact ⟨path, needed, available, hshort, rfl⟩

/-- Bytes that stop short of what two steps read end one of them, if each is ended by bytes that
stop short of what it reads itself. -/
theorem endsTruncated_bind {first : Bytes → Except CodecError (α × Bytes)}
    {next : α × Bytes → Except CodecError β} {item : α} {part front back : Bytes}
    (hread : ∀ rest, first (front ++ rest) = .ok (item, rest))
    (hfirst : ∀ part, StopsShort part front → EndsTruncated (first part))
    (hnext : ∀ rest, StopsShort rest back → EndsTruncated (next (item, rest)))
    (hpart : StopsShort part (front ++ back)) : EndsTruncated (first part >>= next) := by
  rcases hpart.of_append with hpart | ⟨rest, rfl, hrest⟩
  · exact (hfirst part hpart).bind
  · rw [hread rest]
    exact hnext rest hrest

end Chaining

namespace Shape

variable {s : Selections} {path : String} {bytes part : Bytes}

/-- A denotation is read whatever follows it. -/
theorem Denotes.decodeAt_append {shape : Shape} {value : Value}
    (hvalue : shape.Denotes s path bytes value) (rest : Bytes) :
    shape.decodeAt s path (bytes ++ rest) = .ok (value, rest) :=
  (readsDenotations s shape ..).mpr ⟨bytes, rfl, hvalue⟩

/-- What reading a shape at any path amounts to where bytes stop short of what denotes a value. -/
def RefusesPrefixes (s : Selections) (shape : Shape) : Prop :=
  ∀ path bytes value part, shape.Denotes s path bytes value → StopsShort part bytes →
    EndsTruncated (shape.decodeAt s path part)

/-- Elements are refused where bytes stop short of them, if one element is. -/
theorem endsTruncated_readItems {elem : Shape} (helem : elem.RefusesPrefixes s) {index : Nat}
    {items : List Value} (hitems : DenotesItems s elem path index bytes items)
    (hpart : StopsShort part bytes) :
    EndsTruncated (readItems (fun index => elem.decodeAt s (Path.element path index)) items.length
      index part) := by
  induction items generalizing index bytes part with
  | nil =>
    cases hitems
    exact absurd hpart.length_lt (Nat.not_lt_zero _)
  | cons item items ih =>
    cases hitems with
    | cons hitem hitems =>
      rw [List.length_cons, readItems]
      exact endsTruncated_bind hitem.decodeAt_append (fun part => helem _ _ _ part hitem)
        (fun rest hrest => (ih hitems hrest).bind) hpart

/-- Fields are refused where bytes stop short of them, if each field is. -/
theorem endsTruncated_decodeFields {fields : List (Named Shape)}
    (hfields : ∀ field ∈ fields, field.item.RefusesPrefixes s) {values : List (Named Value)}
    (hvalues : DenotesFields s path fields bytes values) (hpart : StopsShort part bytes) :
    EndsTruncated (decodeFields s path fields part) := by
  induction fields generalizing bytes values part with
  | nil =>
    cases hvalues
    exact absurd hpart.length_lt (Nat.not_lt_zero _)
  | cons field fields ih =>
    rw [List.forall_mem_cons] at hfields
    cases hvalues with
    | cons hvalue hvalues =>
      rw [decodeFields]
      exact endsTruncated_bind hvalue.decodeAt_append (fun part => hfields.1 _ _ _ part hvalue)
        (fun rest hrest => (ih hfields.2 hvalues hrest).bind) hpart

/-- Bytes that stop short of what denotes a value are refused for that reason. -/
theorem refusesPrefixes (s : Selections) (shape : Shape) : shape.RefusesPrefixes s := by
  induction shape with
  | scalar kind =>
    intro path bytes value part hvalue hpart
    cases hvalue with
    | scalar _ x =>
      have hshort : part.length < x.kind.width := x.length_bytes ▸ hpart.length_lt
      exact ⟨path, x.kind.width, part.length, hshort, decodeAt_scalar_eq_error.mpr ⟨hshort, rfl⟩⟩
  | array elem count ih =>
    intro path bytes value part hvalue hpart
    cases hvalue with
    | array hlength hitems =>
      rw [decodeAt, ← hlength]
      exact (endsTruncated_readItems ih hitems hpart).bind
  | struct fields ih =>
    intro path bytes value part hvalue hpart
    cases hvalue with
    | struct hvalues =>
      rw [decodeAt]
      exact (endsTruncated_decodeFields ih hvalues hpart).bind
  | enum variants ih =>
    intro path bytes value part hvalue hpart
    cases part with
    | nil => exact ⟨path, 1, 0, Nat.zero_lt_one, rfl⟩
    | cons tag part =>
      -- The tag is there, so it is in a payload that bytes are missing.
      obtain ⟨byte, missing, hbytes⟩ := hpart
      rw [List.cons_append] at hbytes
      cases hvalue with
      | bare hvariant => cases List.append_eq_nil_iff.mp (List.cons.inj hbytes).2.symm |>.2
      | loaded hvariant hpayload =>
        obtain ⟨rfl, rfl⟩ := List.cons.inj hbytes
        rw [decodeAt, decodeVariant_eq, hvariant]
        exact (ih _ (mem_of_variantTagged? hvariant) _ rfl _ _ _ part hpayload
          ⟨byte, missing, rfl⟩).bind
  | union members ih =>
    intro path bytes value part hvalue hpart
    cases hvalue with
    | union hselected hmember hvalue =>
      rw [decodeAt, hselected]
      change EndsTruncated (decodeMember s path _ part members)
      rw [decodeMember_eq, hmember]
      exact ih _ (mem_of_memberNamed? hmember) _ _ _ part hvalue hpart

section Encodings

/-- Every completed encoding of a shape, at any path, denotes a value. It need not be a match for
the value that was encoded, as that may repeat a field. -/
def EncodesDenotations (s : Selections) (shape : Shape) : Prop :=
  ∀ path value bytes, shape.encodeAt s value path = .write bytes →
    ∃ back, shape.Denotes s path bytes back

/-- Elements are written to bytes that denote elements, if one element is. -/
theorem exists_denotesItems {elem : Shape} (helem : elem.EncodesDenotations s) {index : Nat}
    {items : List Value}
    (hwritten : emitItems (fun item index => elem.encodeAt s item (Path.element path index))
      index items = .write bytes) :
    ∃ backs, backs.length = items.length ∧ DenotesItems s elem path index bytes backs := by
  induction items generalizing index bytes with
  | nil =>
    cases Emission.write_eq_write.mp hwritten
    exact ⟨[], rfl, .nil elem path index⟩
  | cons item items ih =>
    obtain ⟨front, rest, hitem, hitems, rfl⟩ := emitItems_cons_eq_write.mp hwritten
    obtain ⟨back, hback⟩ := helem _ item front hitem
    obtain ⟨backs, hlength, hbacks⟩ := ih hitems
    exact ⟨back :: backs, congrArg (· + 1) hlength, .cons hback hbacks⟩

/-- Fields are written to bytes that denote fields, if each field is. -/
theorem exists_denotesFields {fields : List (Named Shape)}
    (hfields : ∀ field ∈ fields, field.item.EncodesDenotations s) {values : List (Named Value)}
    (hwritten : encodeFields s path values fields = .write bytes) :
    ∃ backs, DenotesFields s path fields bytes backs := by
  induction fields generalizing bytes with
  | nil =>
    cases Emission.write_eq_write.mp hwritten
    exact ⟨[], .nil path⟩
  | cons field fields ih =>
    obtain ⟨name, shape⟩ := field
    rw [List.forall_mem_cons] at hfields
    obtain ⟨value, front, rest, _, hvalue, hrest, rfl⟩ := encodeFields_cons_eq_write.mp hwritten
    obtain ⟨back, hback⟩ := hfields.1 _ value front hvalue
    obtain ⟨backs, hbacks⟩ := ih hfields.2 hrest
    exact ⟨⟨name, back⟩ :: backs, .cons hback hbacks⟩

/-- Whatever is encoded, the bytes denote a value. -/
theorem exists_denotes_of_encodeAt (s : Selections) (shape : Shape) :
    shape.EncodesDenotations s := by
  induction shape with
  | scalar kind =>
    intro path value bytes hwritten
    obtain ⟨x, rfl, rfl, rfl⟩ := encodeAt_scalar_eq_write.mp hwritten
    exact ⟨.scalar x, .scalar path x⟩
  | array elem count ih =>
    intro path value bytes hwritten
    obtain ⟨items, rfl, hcount, hitems⟩ := encodeAt_array_eq_write.mp hwritten
    obtain ⟨backs, hlength, hbacks⟩ := exists_denotesItems ih hitems
    exact ⟨.array backs, .array (hlength.trans hcount) hbacks⟩
  | struct fields ih =>
    intro path value bytes hwritten
    obtain ⟨values, rfl, _, hvalues⟩ := encodeAt_struct_eq_write.mp hwritten
    obtain ⟨backs, hbacks⟩ := exists_denotesFields ih hvalues
    exact ⟨.struct backs, .struct hbacks⟩
  | enum variants ih =>
    intro path value bytes hwritten
    rcases encodeAt_enum_eq_write.mp hwritten with ⟨tag, name, rfl, hvariant, rfl⟩ |
      ⟨tag, name, shape, payload, rest, rfl, hvariant, hpayload, rfl⟩
    · exact ⟨.enum tag none, .bare hvariant⟩
    · obtain ⟨back, hback⟩ :=
        ih _ (mem_of_variantTagged? hvariant) shape rfl _ payload rest hpayload
      exact ⟨.enum tag (some back), .loaded hvariant hback⟩
  | union members ih =>
    intro path value bytes hwritten
    obtain ⟨name, shape, hselected, hmember, hvalue⟩ := encodeAt_union_eq_write.mp hwritten
    obtain ⟨back, hback⟩ := ih _ (mem_of_memberNamed? hmember) _ value bytes hvalue
    exact ⟨back, .union hselected hmember hback⟩

end Encodings

/-- Where bytes begin with what denotes a value, no other number of them denotes one. -/
theorem Denotes.eq_of_prefix {shape : Shape} {front back : Bytes} {x y : Value}
    (hfront : shape.Denotes s path front x) (hback : shape.Denotes s path back y)
    (hbegins : front <+: back) : front = back := by
  obtain ⟨tail, rfl⟩ := hbegins
  have hread := hback.decodeAt_append []
  rw [List.append_nil, hfront.decodeAt_append tail, Except.ok.injEq, Prod.mk.injEq] at hread
  rw [hread.2, List.append_nil]

/-- Decoding is settled by the bytes that it takes. Followed by any others they are decoded to the
same value, and fewer of them are always refused because they end before something that is to be
read. So of all that is encoded under the same selections, nothing begins with anything else. -/
theorem decodeFront_take_append (shape : Shape) (s : Selections) :
    (∀ bytes value count, shape.decodeFront bytes s = .ok (value, count) →
      count ≤ bytes.length ∧
      (∀ tail, shape.decodeFront (bytes.take count ++ tail) s = .ok (value, count)) ∧
      ∀ fewer < count, EndsTruncated (shape.decodeFront (bytes.take fewer) s)) ∧
    ∀ x y front back, shape.encode x s = .ok front → shape.encode y s = .ok back →
      front <+: back → front = back := by
  refine ⟨fun bytes value count hdecode => ?_, fun x y front back hx hy hbegins => ?_⟩
  · obtain ⟨front, rest, rfl, rfl, hfront⟩ := decodeFront_eq_ok_iff.mp hdecode
    refine ⟨?_, fun tail => ?_, fun fewer hfewer => ?_⟩
    · rw [List.length_append]
      exact Nat.le_add_right _ _
    · rw [List.take_left]
      exact decodeFront_eq_ok_iff.mpr ⟨front, tail, rfl, rfl, hfront⟩
    · rw [List.take_append_of_le_length (Nat.le_of_lt hfewer)]
      exact (refusesPrefixes s shape _ _ _ _ hfront (stopsShort_take hfewer)).map
  · obtain ⟨_, hfront⟩ := exists_denotes_of_encodeAt s shape _ x front (encode_eq_ok_iff.mp hx)
    obtain ⟨_, hback⟩ := exists_denotes_of_encodeAt s shape _ y back (encode_eq_ok_iff.mp hy)
    exact hfront.eq_of_prefix hback hbegins

/-- The fourteen bytes of a packet are decoded with other bytes after them than there were, and
refused where the last four are missing. -/
theorem decodeFront_take_append_packet :
    let bytes := Samples.packetBytes ++ [9, 9]
    Samples.packet.decodeFront bytes Samples.packetSelections = .ok (Samples.packetValue, 14) ∧
      Samples.packet.decodeFront (bytes.take 14 ++ [1]) Samples.packetSelections =
        .ok (Samples.packetValue, 14) ∧
      10 < 14 ∧
      EndsTruncated (Samples.packet.decodeFront (bytes.take 10) Samples.packetSelections) ∧
      ∃ front back, Samples.packet.encode Samples.packetValue Samples.packetSelections = .ok front ∧
        Samples.packet.encode Samples.packetShuffled Samples.packetSelections = .ok back ∧
        front <+: back ∧ front = back := by
  intro bytes
  have hdecode : Samples.packet.decodeFront bytes Samples.packetSelections =
      .ok (Samples.packetValue, 14) := by rfl
  have hvalue : Samples.packet.encode Samples.packetValue Samples.packetSelections =
      .ok Samples.packetBytes := by decide
  have hshuffled : Samples.packet.encode Samples.packetShuffled Samples.packetSelections =
      .ok Samples.packetBytes := by decide
  obtain ⟨hsettled, hfree⟩ := decodeFront_take_append Samples.packet Samples.packetSelections
  obtain ⟨_, hmore, hfewer⟩ := hsettled bytes _ _ hdecode
  exact ⟨hdecode, hmore [1], by decide, hfewer 10 (by decide), _, _, hvalue, hshuffled,
    List.prefix_refl _, hfree _ _ _ _ hvalue hshuffled (List.prefix_refl _)⟩

end Shape

end WireParity
