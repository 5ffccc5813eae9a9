import Mathlib.Algebra.BigOperators.Intervals
import WireParity.Proofs.Codec.Length
import WireParity.Shape.Offsets

/-!
# Offsets locate the bytes of fields

The size of a struct, the spans of its fields, the offset of one field and the encoding of a value
are four walks over the fields. The first three add up the same sizes with the same checks, so there
are spans exactly if there is a size, the spans lie back to back from the start to the size, and
looking for a single field stops at its span.

A size that measures what is written is the length of that, so the walk of the encoder keeps step as
well: where the spans of the fields that are left begin, the bytes of these fields begin. An
induction over fields therefore carries the bytes that are written already, and the offset is their
number. -/

namespace WireParity

/-- The path of a field of the root is its name. -/
theorem Path.child_root (name : String) : Path.child Path.root name = name := if_pos rfl

namespace FieldSpan

/-- Where a field ends. -/
def stop (span : FieldSpan) : Nat := span.offset + span.size

/-- A span is about a field: it has the name of the field, and its size at its path. -/
structure Describes (s : Selections) (field : Named Shape) (span : FieldSpan) : Prop where
  name : span.name = field.name
  size : field.item.sizeAt s (Path.child Path.root field.name) = .ok span.size

/-- A span locates a field of a value in bytes: what is written for the field, at its path, is the
bytes of the span. -/
def Locates (s : Selections) (value : Value) (bytes : Bytes) (field : Named Shape)
    (span : FieldSpan) : Prop :=
  span.stop ≤ bytes.length ∧ ∃ item, value.field? field.name = some item ∧
    field.item.encodeAt s item (Path.child Path.root field.name) =
      .write ((bytes.drop span.offset).take span.size)

end FieldSpan

namespace Shape

variable {s : Selections} {fields : List (Named Shape)} {offset : Nat} {spans : List FieldSpan}

/-- Fields have spans if the first has a size, its end is below the limit, and the others have spans
from there on. -/
theorem spansFrom_cons_eq_ok {name : String} {shape : Shape} :
    spansFrom s offset (⟨name, shape⟩ :: fields) = .ok spans ↔
      ∃ size others, shape.sizeAt s (Path.child Path.root name) = .ok size ∧
        offset + size < sizeLimit ∧ spansFrom s (offset + size) fields = .ok others ∧
        spans = ⟨name, offset, size⟩ :: others := by
  rw [Path.child_root, spansFrom, bind_eq_ok_iff]
  refine ⟨?_, ?_⟩
  · intro h
    obtain ⟨size, hsize, h⟩ := h
    obtain ⟨next, hnext, h⟩ := bind_eq_ok_iff.mp h
    obtain ⟨rfl, hlimit⟩ := (measures_checkedSize Path.root (offset + size) next).mp hnext
    obtain ⟨others, hothers, hspans⟩ := bind_eq_ok_iff.mp h
    cases hspans
    exact ⟨size, others, hsize, hlimit, hothers, rfl⟩
  · intro h
    obtain ⟨size, others, hsize, hlimit, hothers, rfl⟩ := h
    have hnext := (measures_checkedSize Path.root (offset + size)).eq_ok hlimit
    exact ⟨size, hsize, bind_eq_ok_iff.mpr
      ⟨offset + size, hnext, bind_eq_ok_iff.mpr ⟨others, hothers, rfl⟩⟩⟩

/-- The spans of fields end where the fields are summed to, and there are none for the reason for
which there is no sum. -/
theorem map_spansFrom (s : Selections) (offset : Nat) (fields : List (Named Shape)) :
    (spansFrom s offset fields).map (fun spans => offset + (spans.map FieldSpan.size).sum) =
      sizeFields s Path.root offset fields := by
  induction fields generalizing offset with
  | nil => rfl
  | cons field fields ih =>
    obtain ⟨name, shape⟩ := field
    rw [spansFrom, sizeFields, Path.child_root]
    cases shape.sizeAt s name with
    | error fault => rfl
    | ok size =>
      change (checkedSize Path.root (offset + size) >>= _).map _ =
        checkedSize Path.root (offset + size) >>= _
      cases hnext : checkedSize Path.root (offset + size) with
      | error fault => rfl
      | ok next =>
        obtain ⟨rfl, _⟩ := (measures_checkedSize Path.root (offset + size) next).mp hnext
        change ((spansFrom s (offset + size) fields >>= _).map _ : Except CodecError Nat) =
          sizeFields s Path.root (offset + size) fields
        rw [← ih]
        cases spansFrom s (offset + size) fields with
        | error fault => rfl
        | ok others => simp [bind, Except.bind, pure, Except.pure, Except.map, Nat.add_assoc]

/-- A struct has spans for its fields where it has a size, which is the sum of theirs. -/
theorem map_fieldSpans (s : Selections) (fields : List (Named Shape)) :
    ((Shape.struct fields).fieldSpans s).map (fun spans => (spans.map FieldSpan.size).sum) =
      (Shape.struct fields).size s := by
  have hsum := map_spansFrom s 0 fields
  simp only [Nat.zero_add] at hsum
  rw [size, sizeAt]
  exact hsum

/-- Every field has a span, in order. -/
theorem describes_of_spansFrom (hspans : spansFrom s offset fields = .ok spans) :
    List.Forall₂ (FieldSpan.Describes s) fields spans := by
  induction fields generalizing offset spans with
  | nil =>
    cases hspans
    exact .nil
  | cons field fields ih =>
    obtain ⟨size, others, hsize, _, hothers, rfl⟩ := spansFrom_cons_eq_ok.mp hspans
    exact .cons ⟨rfl, hsize⟩ (ih hothers)

/-- Spans that describe fields have their names. -/
theorem map_name_of_describes (hspans : List.Forall₂ (FieldSpan.Describes s) fields spans) :
    spans.map FieldSpan.name = fields.map Named.name := by
  induction hspans with
  | nil => rfl
  | cons hfirst _ ih => rw [List.map_cons, List.map_cons, hfirst.name, ih]

/-- A span starts behind all that are before it. -/
theorem offset_of_spansFrom {before after : List FieldSpan} {span : FieldSpan}
    (hspans : spansFrom s offset fields = .ok (before ++ span :: after)) :
    span.offset = offset + (before.map FieldSpan.size).sum := by
  induction before generalizing offset fields with
  | nil =>
    cases fields with
    | nil => cases hspans
    | cons field fields =>
      obtain ⟨size, others, _, _, _, hparts⟩ := spansFrom_cons_eq_ok.mp hspans
      cases hparts
      rfl
  | cons first before ih =>
    cases fields with
    | nil => cases hspans
    | cons field fields =>
      obtain ⟨size, others, _, _, hothers, hparts⟩ := spansFrom_cons_eq_ok.mp hspans
      cases hparts
      rw [ih hothers, List.map_cons, List.sum_cons, Nat.add_assoc]

/-- Of fields with distinct names, each is found at the offset of its span. -/
theorem offsetFrom_of_spansFrom (hdistinct : (fields.map Named.name).Nodup)
    (hspans : spansFrom s offset fields = .ok spans) {span : FieldSpan} (hspan : span ∈ spans) :
    offsetFrom s span.name offset fields = .ok span.offset := by
  induction fields generalizing offset spans with
  | nil =>
    cases hspans
    cases hspan
  | cons field fields ih =>
    obtain ⟨name, shape⟩ := field
    obtain ⟨size, others, hsize, hlimit, hothers, rfl⟩ := spansFrom_cons_eq_ok.mp hspans
    rw [List.map_cons, List.nodup_cons] at hdistinct
    rw [offsetFrom]
    rcases List.mem_cons.mp hspan with rfl | hspan
    · exact if_pos rfl
    · have hname : span.name ∈ fields.map Named.name := by
        rw [← map_name_of_describes (describes_of_spansFrom hothers)]
        exact List.mem_map_of_mem hspan
      have hne : name ≠ span.name := fun hsame => hdistinct.1 (hsame ▸ hname)
      have hnext := (measures_checkedSize Path.root (offset + size)).eq_ok hlimit
      rw [Path.child_root] at hsize
      rw [if_neg hne]
      exact bind_eq_ok_iff.mpr ⟨size, hsize,
        bind_eq_ok_iff.mpr ⟨offset + size, hnext, ih hdistinct.2 hothers hspan⟩⟩

/-- Behind what is written already, the fields that are left are written at their spans. -/
theorem locates_of_spansFrom (hfields : ∀ field ∈ fields, field.item.SizesEncodings s)
    {values : List (Named Value)} {front bytes : Bytes}
    (hspans : spansFrom s front.length fields = .ok spans)
    (hwritten : encodeFields s Path.root values fields = .write bytes)
    (hselects : ∀ field ∈ fields, ∀ value, Value.fieldIn? field.name values = some value →
      SelectsTags s field.item (Path.child Path.root field.name) value) :
    List.Forall₂ (FieldSpan.Locates s (.struct values) (front ++ bytes)) fields spans := by
  induction fields generalizing front bytes spans with
  | nil =>
    cases hspans
    exact .nil
  | cons field fields ih =>
    obtain ⟨name, shape⟩ := field
    rw [List.forall_mem_cons] at hfields hselects
    obtain ⟨size, others, hsize, _, hothers, rfl⟩ := spansFrom_cons_eq_ok.mp hspans
    obtain ⟨item, part, back, hitem, hpart, hback, rfl⟩ := encodeFields_cons_eq_write.mp hwritten
    -- What is written for the field is as long as the size by which the spans go on.
    have hmeasures : Measures (shape.sizeAt s (Path.child Path.root name)) part.length :=
      hfields.1 _ _ _ hpart (hselects.1 item hitem)
    obtain ⟨rfl, _⟩ := (hmeasures size).mp hsize
    have hbytes : front ++ (part ++ back) = front ++ part ++ back := (List.append_assoc ..).symm
    refine .cons ⟨?_, item, hitem, ?_⟩ ?_
    · simp only [FieldSpan.stop, List.length_append]
      omega
    · rw [List.drop_left, List.take_left]
      exact hpart
    · rw [hbytes]
      refine ih hfields.2 ?_ hback hselects.2
      rw [List.length_append]
      exact hothers

/-- The spans of a struct locate its fields. There are spans exactly if there is a size, and
otherwise the same fault. Each span is about its field; it starts where those before it end, which
is where the field is found by its name alone, and the last ends at the size. In whatever the struct
encodes to under selections that say which variants the value carries, the bytes of a span are what
is written for the field at its path. -/
theorem fieldSpans_locate (fields : List (Named Shape)) (s : Selections)
    (hvalid : (Shape.struct fields).validate = .ok ()) :
    (∀ fault, (Shape.struct fields).fieldSpans s = .error fault ↔
      (Shape.struct fields).size s = .error fault) ∧
    (∀ spans, (Shape.struct fields).fieldSpans s = .ok spans →
      List.Forall₂ (FieldSpan.Describes s) fields spans ∧
      (∀ before span after, spans = before ++ span :: after →
        span.offset = (before.map FieldSpan.size).sum ∧
        (Shape.struct fields).fieldOffset span.name s = .ok span.offset) ∧
      (Shape.struct fields).size s = .ok (spans.map FieldSpan.size).sum ∧
      ∀ last, spans.getLast? = some last → (Shape.struct fields).size s = .ok last.stop) ∧
    ∀ value bytes, (Shape.struct fields).encode value s = .ok bytes →
      SelectsTags s (.struct fields) Path.root value →
      ((∃ spans, (Shape.struct fields).fieldSpans s = .ok spans) ↔ bytes.length < sizeLimit) ∧
      ∀ spans, (Shape.struct fields).fieldSpans s = .ok spans →
        List.Forall₂ (FieldSpan.Locates s value bytes) fields spans := by
  have hwell := wellFormed_of_validate hvalid
  have hsize := map_fieldSpans s fields
  refine ⟨fun fault => ?_, fun spans hspans => ?_, fun value bytes hencode hselects => ?_⟩
  · rw [← hsize, map_eq_error_iff]
  · have hsum : (Shape.struct fields).size s = .ok (spans.map FieldSpan.size).sum := by
      rw [← hsize, hspans]
      rfl
    have hdistinct : (fields.map Named.name).Nodup := by
      cases hwell with
      | struct hdistinct _ => exact hdistinct
    refine ⟨describes_of_spansFrom hspans, ?_, hsum, ?_⟩
    · rintro before span after rfl
      refine ⟨?_, offsetFrom_of_spansFrom hdistinct hspans (by simp)⟩
      rw [offset_of_spansFrom hspans, Nat.zero_add]
    · intro last hlast
      obtain ⟨before, rfl⟩ := List.getLast?_eq_some_iff.mp hlast
      have hoffset := offset_of_spansFrom hspans
      rw [hsum, FieldSpan.stop, hoffset]
      simp
  · have hwritten := encode_eq_ok_iff.mp hencode
    have hmeasures := sizesEncodings s hwell _ _ _ hwritten hselects
    refine ⟨?_, fun spans hspans => ?_⟩
    · refine ⟨?_, fun hlimit => ?_⟩
      · rintro ⟨spans, hspans⟩
        rw [size, hspans] at hsize
        exact ((hmeasures _).mp hsize.symm).2
      · rw [size, hmeasures.eq_ok hlimit, map_eq_ok_iff] at hsize
        obtain ⟨spans, hspans, _⟩ := hsize
        exact ⟨spans, hspans⟩
    · obtain ⟨values, rfl, _, hvalues⟩ := encodeAt_struct_eq_write.mp hwritten
      have hparts : ∀ field ∈ fields, field.item.SizesEncodings s := by
        cases hwell with
        | struct _ hparts => exact fun field hfield => sizesEncodings s (hparts field hfield)
      have hvariants : ∀ field ∈ fields, ∀ item, Value.fieldIn? field.name values = some item →
          SelectsTags s field.item (Path.child Path.root field.name) item :=
        fun field hfield item hitem node variant hvisit =>
          hselects node variant (.field hfield hitem hvisit)
      -- Nothing is written before the first field.
      have hlocates :
          List.Forall₂ (FieldSpan.Locates s (.struct values) ([] ++ bytes)) fields spans :=
        locates_of_spansFrom hparts hspans hvalues hvariants
      exact hlocates

/-- In the packet, the steps lie between the level and the four raw bytes. -/
theorem fieldSpans_locate_packet :
    let s := Samples.packetChoices
    let spans : List FieldSpan := [⟨"level", 0, 4⟩, ⟨"steps", 4, 6⟩, ⟨"raw", 10, 4⟩]
    Samples.packet.validate = .ok () ∧
      Samples.packet.encode Samples.packetShuffled s = .ok Samples.packetBytes ∧
      SelectsTags s Samples.packet Path.root Samples.packetShuffled ∧
      Samples.packet.fieldSpans s = .ok spans ∧ Samples.packet.size s = .ok 14 ∧
      Samples.packet.fieldOffset "raw" s = .ok 10 ∧
      FieldSpan.Locates s Samples.packetShuffled Samples.packetBytes
        ⟨"steps", .array Samples.choice 2⟩ ⟨"steps", 4, 6⟩ := by
  intro s spans
  have hvalid : Samples.packet.validate = .ok () := by decide
  have hencode : Samples.packet.encode Samples.packetShuffled s = .ok Samples.packetBytes := by
    decide
  have hspans : Samples.packet.fieldSpans s = .ok spans := by decide
  obtain ⟨_, hplaces, hbytes⟩ := fieldSpans_locate _ s hvalid
  obtain ⟨_, hoffsets, hsize, _⟩ := hplaces spans hspans
  have hraw := hoffsets [⟨"level", 0, 4⟩, ⟨"steps", 4, 6⟩] ⟨"raw", 10, 4⟩ [] rfl
  have hlocates := (hbytes _ _ hencode selectsTags_packet).2 spans hspans
  have hsteps := (List.forall₂_cons.mp (List.forall₂_cons.mp hlocates).2).1
  exact ⟨hvalid, hencode, selectsTags_packet, hspans, hsize, hraw.2, hsteps⟩

end Shape

end WireParity
