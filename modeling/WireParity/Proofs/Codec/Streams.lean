import WireParity.Proofs.Codec.RoundTrip

/-!
# Streams of records

Records are appended to one buffer, one after another. Whatever a record comes to, what the buffer
held stays in front of it: appending is writing, put at the end. Since a decoder stops as soon as its
shape is satisfied, the records can be read back one by one without anything between them, each
from where the one before it ended, and the last one ends where the buffer does.
-/

namespace WireParity

namespace Appending

/-- Appends what an emission wrote, and stops if it did. -/
def ofEmission (e : Emission) : Appending Unit := fun buffer =>
  match e.stop with
  | none => .ok () (buffer ++ e.bytes)
  | some error => .error error (buffer ++ e.bytes)

/-- Pushing bytes appends what writing them emits. -/
theorem push_eq (bytes : Bytes) : push bytes = ofEmission (.write bytes) := rfl

/-- Appending nothing is done at once. -/
theorem pure_eq : (pure () : Appending Unit) = ofEmission (.write []) := by
  funext buffer
  exact congrArg (EStateM.Result.ok ()) (List.append_nil buffer).symm

/-- A failure appends nothing. -/
theorem fail_eq (path : String) (cause : Cause) :
    fail path cause = ofEmission (.fail path cause) := by
  funext buffer
  exact congrArg (EStateM.Result.error _) (List.append_nil buffer).symm

/-- Appending one emission and then another appends both, as far as they come. -/
theorem ofEmission_andThen (first rest : Emission) :
    (ofEmission first >>= fun _ => ofEmission rest) = ofEmission (first.andThen fun _ => rest) := by
  funext buffer
  obtain ⟨bytes, stop⟩ := first
  obtain ⟨more, stop'⟩ := rest
  cases stop with
  | some error => rfl
  | none => cases stop' <;> simp [bind, EStateM.bind, ofEmission, Emission.andThen]

/-- Items are appended as they are emitted, if each item is. -/
theorem items_eq {append : Value → Nat → Appending Unit} {emit : Value → Nat → Emission}
    (hitem : ∀ item index, append item index = ofEmission (emit item index)) (index : Nat)
    (values : List Value) :
    items append index values = ofEmission (emitItems emit index values) := by
  induction values generalizing index with
  | nil => exact pure_eq
  | cons item values ih =>
    rw [items, hitem, ih, emitItems, ofEmission_andThen]

end Appending

open Appending

namespace Shape

variable {s : Selections} {path : String}

/-- What appending a shape at any path amounts to. -/
def AppendsEmission (s : Selections) (shape : Shape) : Prop :=
  ∀ value path, shape.appendAt s value path = ofEmission (shape.encodeAt s value path)

/-- Fields are appended as they are emitted, if each field is. -/
theorem appendFields_eq {fields : List (Named Shape)}
    (hfields : ∀ field ∈ fields, field.item.AppendsEmission s) (values : List (Named Value)) :
    appendFields s path values fields = ofEmission (encodeFields s path values fields) := by
  induction fields with
  | nil => exact pure_eq
  | cons field fields ih =>
    obtain ⟨name, shape⟩ := field
    rw [List.forall_mem_cons] at hfields
    rw [appendFields, encodeFields]
    cases Value.fieldIn? name values with
    | none => exact fail_eq path _
    | some value =>
      simp only
      rw [hfields.1, ih hfields.2, ofEmission_andThen]

/-- A variant is appended as it is emitted, if each payload is. -/
theorem appendVariant_eq {variants : List (Variant Shape)}
    (hvariants : ∀ variant ∈ variants, ∀ shape, variant.payload = some shape →
      shape.AppendsEmission s) (tag : UInt8) (payload : Option Value) :
    appendVariant s path tag payload variants =
      ofEmission (encodeVariant s path tag payload variants) := by
  induction variants with
  | nil => exact fail_eq path _
  | cons variant variants ih =>
    obtain ⟨name, other, declared⟩ := variant
    rw [List.forall_mem_cons] at hvariants
    rw [appendVariant.eq_def, encodeVariant.eq_def]
    by_cases htag : other = tag
    · simp only [if_pos htag]
      rw [push_eq, ← ofEmission_andThen]
      congr 1
      funext _
      cases declared with
      | none =>
        cases payload with
        | none => exact pure_eq
        | some value => exact fail_eq path _
      | some shape =>
        cases payload with
        | none => exact fail_eq path _
        | some value => exact hvariants.1 shape rfl value _
    · simp only [if_neg htag]
      exact ih hvariants.2

/-- A member is appended as it is emitted, if each member is. -/
theorem appendMember_eq {members : List (Named Shape)}
    (hmembers : ∀ member ∈ members, member.item.AppendsEmission s) (name : String) (value : Value) :
    appendMember s path name value members =
      ofEmission (encodeMember s path name value members) := by
  induction members with
  | nil => exact fail_eq path _
  | cons member members ih =>
    obtain ⟨other, shape⟩ := member
    rw [List.forall_mem_cons] at hmembers
    rw [appendMember, encodeMember]
    by_cases hname : other = name
    · rw [if_pos hname, if_pos hname, hmembers.1]
    · rw [if_neg hname, if_neg hname, ih hmembers.2]

/-- Appending a value at a path puts what is emitted for it behind what the buffer held. -/
theorem appendsEmission (s : Selections) (shape : Shape) : shape.AppendsEmission s := by
  induction shape with
  | scalar kind =>
    intro value path
    cases value with
    | scalar x =>
      rw [appendAt, encodeAt]
      by_cases hkind : x.kind = kind
      · rw [if_pos hkind, if_pos hkind, push_eq]
      · rw [if_neg hkind, if_neg hkind]
        exact fail_eq path _
    | _ => exact fail_eq path _
  | array elem count ih =>
    intro value path
    cases value with
    | array values =>
      rw [appendAt, encodeAt]
      by_cases hlength : values.length = count.toNat
      · rw [if_pos hlength, if_pos hlength]
        exact items_eq (fun item index => ih item _) 0 values
      · rw [if_neg hlength, if_neg hlength]
        exact fail_eq path _
    | _ => exact fail_eq path _
  | struct fields ih =>
    intro value path
    cases value with
    | struct values =>
      rw [appendAt, encodeAt]
      cases Value.undeclaredField? fields values with
      | some extra => exact fail_eq path _
      | none => exact appendFields_eq ih values
    | _ => exact fail_eq path _
  | enum variants ih =>
    intro value path
    cases value with
    | enum tag payload => exact appendVariant_eq ih tag payload
    | _ => exact fail_eq path _
  | union members ih =>
    intro value path
    rw [appendAt, encodeAt]
    cases s.get? path with
    | none => exact fail_eq path _
    | some name => exact appendMember_eq ih name value

/-- Encoding into a buffer puts what is emitted behind what it held. -/
theorem encodeInto_eq (shape : Shape) (value : Value) (s : Selections) (buffer : Bytes) :
    shape.encodeInto value s buffer =
      (buffer ++ (shape.emission value s).bytes, (shape.emission value s).stop) := by
  rw [encodeInto, emission, appendsEmission s shape value Path.root]
  generalize shape.encodeAt s value Path.root = e
  obtain ⟨bytes, stop⟩ := e
  cases stop <;> rfl

end Shape

/-- A value that is to be written as a shape under selections. -/
structure Record where
  shape : Shape
  value : Value
  selections : Selections

namespace Record

/-- What a record is encoded as by itself. -/
def encoding (r : Record) : Except CodecError Bytes := r.shape.encode r.value r.selections

/-- Appends a record to a buffer: the buffer afterwards, and the error if there was one. -/
def appendTo (r : Record) (buffer : Bytes) : Bytes × Option CodecError :=
  r.shape.encodeInto r.value r.selections buffer

/-- The buffer after records were appended one after another, whatever each of them came to. -/
def bufferAfter (buffer : Bytes) (records : List Record) : Bytes :=
  records.foldl (fun before r => (r.appendTo before).1) buffer

/-- Reads one value after another from a position on: the values, and the position after them. -/
def readStream (bytes : Bytes) :
    Nat → List (Shape × Selections) → Except CodecError (List Value × Nat)
  | position, [] => .ok ([], position)
  | position, (shape, s) :: rest => do
    let (value, count) ← shape.decodeFront (bytes.drop position) s
    let (values, stop) ← readStream bytes (position + count) rest
    return (value :: values, stop)

/-- What has to be known to read a record. -/
def layout (r : Record) : Shape × Selections := (r.shape, r.selections)

/-- Appending a record to a buffer puts something behind what it held. It is the encoding of the
record if there is one, and otherwise appending fails as encoding does. -/
theorem appendTo_eq (r : Record) (buffer : Bytes) :
    ∃ written, (r.appendTo buffer).1 = buffer ++ written ∧
      ((r.appendTo buffer).2 = none → r.encoding = .ok written) ∧
      ∀ error, (r.appendTo buffer).2 = some error → r.encoding = .error error := by
  rw [appendTo, Shape.encodeInto_eq, encoding, Shape.encode]
  generalize r.shape.emission r.value r.selections = e
  obtain ⟨bytes, stop⟩ := e
  refine ⟨bytes, rfl, ?_, ?_⟩
  · rintro rfl
    rfl
  · rintro error rfl
    rfl

/-- A record whose appending succeeds has an encoding. -/
theorem exists_encoding {r : Record} {buffer : Bytes} (h : (r.appendTo buffer).2 = none) :
    ∃ bytes, r.encoding = .ok bytes ∧ (r.appendTo buffer).1 = buffer ++ bytes := by
  obtain ⟨written, hbuffer, hdone, _⟩ := r.appendTo_eq buffer
  exact ⟨written, hdone h, hbuffer⟩

/-- A record that has an encoding is appended to every buffer. -/
theorem stop_of_encoding {r : Record} {bytes : Bytes} (h : r.encoding = .ok bytes)
    (buffer : Bytes) : (r.appendTo buffer).2 = none := by
  obtain ⟨_, _, _, hfailed⟩ := r.appendTo_eq buffer
  cases hstop : (r.appendTo buffer).2 with
  | none => rfl
  | some error => cases h.symm.trans (hfailed error hstop)

/-- What a buffer held stays in front of all that is appended. -/
theorem prefix_bufferAfter (buffer : Bytes) (records : List Record) :
    buffer <+: bufferAfter buffer records := by
  induction records generalizing buffer with
  | nil => exact List.prefix_refl buffer
  | cons r records ih =>
    obtain ⟨written, hbuffer, _⟩ := r.appendTo_eq buffer
    have hstep : buffer <+: (r.appendTo buffer).1 := hbuffer ▸ List.prefix_append buffer written
    exact hstep.trans (ih _)

/-- What is appended for a record, wherever it lies in a buffer, is read as a value that matches. -/
theorem decodeFront_drop {r : Record} {buffer bytes after : Bytes}
    (hdistinct : r.value.DistinctFields) (hencoding : r.encoding = .ok bytes)
    (hafter : buffer ++ bytes <+: after) :
    ∃ back, r.shape.decodeFront (after.drop buffer.length) r.selections = .ok (back, bytes.length) ∧
      r.value.Matches back := by
  obtain ⟨tail, rfl⟩ := hafter
  obtain ⟨back, hback, hmatch⟩ := Shape.writesMatches r.selections r.shape _ r.value bytes hdistinct
    (Shape.encode_eq_ok_iff.mp hencoding)
  refine ⟨back, ?_, hmatch⟩
  rw [List.append_assoc, List.drop_left]
  exact Shape.decodeFront_eq_ok_iff.mpr ⟨bytes, tail, rfl, rfl, hback⟩

/-- Records that were all appended are read back from where the first begins, up to the end of the
buffer. -/
theorem exists_readStream {buffer : Bytes} {records : List Record}
    (happended : ∀ done r rest, records = done ++ r :: rest →
      (r.appendTo (bufferAfter buffer done)).2 = none)
    (hdistinct : ∀ r ∈ records, r.value.DistinctFields) :
    ∃ backs, readStream (bufferAfter buffer records) buffer.length (records.map layout) =
        .ok (backs, (bufferAfter buffer records).length) ∧
      List.Forall₂ (fun r back => r.value.Matches back) records backs := by
  induction records generalizing buffer with
  | nil => exact ⟨[], rfl, .nil⟩
  | cons r records ih =>
    rw [List.forall_mem_cons] at hdistinct
    have hfirst : (r.appendTo buffer).2 = none := happended [] r records rfl
    obtain ⟨bytes, hencoding, hbuffer⟩ := exists_encoding hfirst
    have hafter : bufferAfter buffer (r :: records) = bufferAfter (buffer ++ bytes) records := by
      rw [← hbuffer]
      rfl
    obtain ⟨back, hback, hmatch⟩ :=
      decodeFront_drop hdistinct.1 hencoding (prefix_bufferAfter (buffer ++ bytes) records)
    have hrest : ∀ done r' rest, records = done ++ r' :: rest →
        (r'.appendTo (bufferAfter (buffer ++ bytes) done)).2 = none := by
      intro done r' rest hsplit
      rw [← hbuffer]
      exact happended (r :: done) r' rest (hsplit ▸ rfl)
    obtain ⟨backs, hbacks, hmatches⟩ := ih hrest hdistinct.2
    rw [List.length_append] at hbacks
    refine ⟨back :: backs, ?_, .cons hmatch hmatches⟩
    rw [hafter, List.map_cons, layout, readStream]
    exact bind_eq_ok_iff.mpr ⟨_, hback, bind_eq_ok_iff.mpr ⟨_, hbacks, rfl⟩⟩

/-- A stream of records on any buffer. At each record, the buffer before it is the front of the
buffer after it; what is added is the encoding of the record if it was appended, and if not, its
error is that of its encoding. Where all are appended, reading them from the end of the first
buffer, each from where the one before it ended, gives back values that agree with theirs, and ends
where the buffer does. -/
theorem readStream_bufferAfter (buffer : Bytes) (records : List Record) :
    (∀ done r rest, records = done ++ r :: rest →
      ∀ after stop, r.appendTo (bufferAfter buffer done) = (after, stop) →
        bufferAfter buffer (done ++ [r]) = after ∧ bufferAfter buffer done <+: after ∧
        (stop = none → ∃ bytes, r.encoding = .ok bytes ∧ after = bufferAfter buffer done ++ bytes) ∧
        ∀ error, stop = some error → r.encoding = .error error) ∧
    ((∀ done r rest, records = done ++ r :: rest →
        (r.appendTo (bufferAfter buffer done)).2 = none) →
      (∀ r ∈ records, r.value.DistinctFields) →
      ∃ backs, readStream (bufferAfter buffer records) buffer.length (records.map layout) =
          .ok (backs, (bufferAfter buffer records).length) ∧
        List.Forall₂ (fun r back => r.value.agrees back = true ∧ back.agrees r.value = true)
          records backs) := by
  refine ⟨fun done r rest _ after stop hstep => ?_, fun happended hdistinct => ?_⟩
  · obtain ⟨written, hafter, hdone, hfailed⟩ := r.appendTo_eq (bufferAfter buffer done)
    rw [hstep] at hafter hdone hfailed
    refine ⟨?_, ⟨written, hafter.symm⟩, fun hstop => ⟨written, hdone hstop, hafter⟩, hfailed⟩
    rw [bufferAfter, List.foldl_append]
    exact congrArg Prod.fst hstep
  · obtain ⟨backs, hread, hmatches⟩ := exists_readStream happended hdistinct
    exact ⟨backs, hread, hmatches.imp fun _ _ hmatch => ⟨hmatch.agrees, hmatch.symm.agrees⟩⟩

end Record

namespace Samples

/-- A packet, a record of no bytes, and a point whose fields are listed the other way round. -/
def stream : List Record :=
  [⟨packet, packetShuffled, packetSelections⟩, ⟨.struct [], .struct [], .empty⟩,
    ⟨point, .struct [⟨"y", .scalar (.ofBits .i32 2)⟩, ⟨"x", .scalar (.ofBits .i32 1)⟩], .empty⟩]

/-- A step that lacks its payload. -/
def unfinished : Record := ⟨choice, .enum 1 none, .empty⟩

end Samples

namespace Record

/-- A step without its payload leaves its tag in the buffer. The stream is read back from behind two
bytes that the buffer held before. -/
theorem readStream_bufferAfter_stream :
    (∃ error, Samples.unfinished.appendTo [9] = ([9, 1], some error) ∧
      [9] <+: ([9, 1] : Bytes) ∧ Samples.unfinished.encoding = .error error) ∧
    (∀ done r rest, Samples.stream = done ++ r :: rest →
      (r.appendTo (bufferAfter [9, 9] done)).2 = none) ∧
    (∀ r ∈ Samples.stream, r.value.DistinctFields) ∧
    ∃ backs, readStream (bufferAfter [9, 9] Samples.stream) 2 (Samples.stream.map layout) =
        .ok (backs, 24) ∧
      List.Forall₂ (fun r back => r.value.agrees back = true ∧ back.agrees r.value = true)
        Samples.stream backs := by
  have hunfinished : Samples.unfinished.appendTo [9] =
      ([9, 1], some ⟨"", .invalidValue (.needsPayload "Value")⟩) := by rfl
  have hkept := (readStream_bufferAfter [9] [Samples.unfinished]).1 [] Samples.unfinished [] rfl _ _
    hunfinished
  have hencodings : ∀ r ∈ Samples.stream, ∃ bytes, r.encoding = .ok bytes := by
    simp only [Samples.stream, List.forall_mem_cons, List.not_mem_nil, false_implies, implies_true,
      and_true]
    exact ⟨⟨Samples.packetBytes, by decide⟩, ⟨[], by decide⟩, ⟨[1, 0, 0, 0, 2, 0, 0, 0], by decide⟩⟩
  have happended : ∀ done r rest, Samples.stream = done ++ r :: rest →
      (r.appendTo (bufferAfter [9, 9] done)).2 = none := by
    intro done r rest hsplit
    have hr : r ∈ Samples.stream := hsplit ▸ List.mem_append_right done List.mem_cons_self
    obtain ⟨bytes, hbytes⟩ := hencodings r hr
    exact stop_of_encoding hbytes _
  have hdistinct : ∀ r ∈ Samples.stream, r.value.DistinctFields := by decide
  have hlength : (bufferAfter [9, 9] Samples.stream).length = 24 := by rfl
  refine ⟨⟨_, hunfinished, hkept.2.1, hkept.2.2.2 _ rfl⟩, happended, hdistinct, ?_⟩
  rw [← hlength]
  exact (readStream_bufferAfter [9, 9] Samples.stream).2 happended hdistinct

end Record

end WireParity
