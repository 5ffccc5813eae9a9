import WireParity.Proofs.Codec.JsonEncodable
import WireParity.Proofs.Corpus.Resolution
import WireParity.Proofs.Parity.Session
import Mathlib.Data.List.Forall2

/-!
# What a loaded corpus promises

Everything that a run relies on is checked when a corpus is loaded, so that nothing of it has to be
checked again. A corpus that loads has exactly one test vector for each entry of its manifests, in
order and under distinct names; each has a valid shape, the bytes of its blob under the declared
checksum, and a value that the canonical codec can encode. What the canonical codec finds wrong when
it encodes a loaded vector is therefore always a difference between bytes.
-/

namespace WireParity

namespace Samples

/-- A manifest in which a type has the name of a scalar kind, and a value is written in hexadecimal. -/
def shadowingText : String :=
  "\x7b\"version\":1,\"types\":\x7b\"u8\":\x7b\"primitive\":\"u16\"\x7d\x7d,\"vectors\":[\x7b\"name\":\"one\"," ++
  "\"type\":\"u8\",\"binary\":\"b\",\"value\":\"0x102\",\"crc32\":\"0x4e840eb\"\x7d]\x7d"

/-- The files of a corpus with this manifest. -/
def shadowingTree : FileTree :=
  .ofFiles [("corpus.json", Utf8.encode shadowingText), ("b", [2, 1])]

end Samples

open Schema Resolving

variable {tree : FileTree} {table : Table Schema} {named : String → Option Shape} {path : String}

namespace Resolver

/-- Names resolve one after another, each to what it stands for. -/
theorem alike_all (names : List String) :
    Alike (At table [])
      (fun types => Table.keys types = names ∧ ∀ entry ∈ types, Stands table entry.1 entry.2)
      (∀ name ∈ names, ∃ shape, Stands table name shape) (all table names) (all table names) := by
  induction names with
  | nil =>
    rw [all]
    exact alike_done ⟨rfl, List.forall_mem_nil _⟩
  | cons name names ih =>
    have hfirst : Alike (At table []) (Stands table name) (∃ shape, Stands table name shape)
        (Resolver.named table name) (Resolver.named table name) :=
      fun r hr => ⟨rfl, settles_named hr name⟩
    rw [all]
    refine (hfirst.weaken (fun _ => id) fun hstand => hstand name List.mem_cons_self).andThen
      fun shape hshape => ?_
    refine (ih.weaken (fun _ => id) fun hstand other hother =>
      hstand other (List.mem_cons_of_mem name hother)).andThen fun types htypes => ?_
    refine alike_done ⟨?_, List.forall_mem_cons.mpr ⟨hshape, htypes.2⟩⟩
    rw [← htypes.1]
    rfl

end Resolver

open Resolver

/-- A corpus with all declared types gives each name the shape that it stands for. -/
theorem Corpus.typeNamed?_of_stands {c : Corpus} (hkeys : Table.keys c.types = Table.keys table)
    (htypes : ∀ entry ∈ c.types, Stands table entry.1 entry.2) {name : String} {shape : Shape}
    (hstands : Stands table name shape) : c.typeNamed? name = some shape := by
  rw [typeNamed?]
  obtain ⟨hexpands, _⟩ := hstands
  cases hfound : Table.find? name c.types with
  | some other =>
    have hother : Stands table name other := htypes _ (Table.mem_of_find? hfound)
    rw [Option.some_or, hother.1.unique hexpands]
  | none =>
    rw [Option.none_or]
    cases hexpands with
    | kind _ hkind => rw [hkind, Option.map_some]
    | declared hdeclared _ =>
      have hkey : name ∈ Table.keys c.types := hkeys ▸ Table.mem_keys_of_find? hdeclared
      obtain ⟨other, hother⟩ := Table.exists_find?_of_mem_keys hkey
      rw [hfound] at hother
      cases hother

namespace VectorEntry

variable {entry : VectorEntry} {v : TestVector} {r r' : Resolver}

/-- A test vector is what an entry of the manifest at a path declares, where named types have given
shapes. -/
structure Declares (tree : FileTree) (named : String → Option Shape) (path : String)
    (entry : VectorEntry) (v : TestVector) : Prop where
  name : v.caseName = entry.name
  valid : v.shape.validate = .ok ()
  type : ∀ name, entry.type = .name name → v.typeName = name ∧ named name = some v.shape
  blob : tree.read (Files.join (Collection.directoryOf path) entry.binary) = .ok v.bytes
  checksum : ∀ text, entry.crc32 = some text →
    checksum? text = some (Checksum.crc32 v.bytes).toNat
  value : v.shape.valueOfJson entry.value v.selections = .ok v.value

/-- A blob passes its check exactly if a declared checksum is its own. -/
theorem checkBlob_eq_ok_iff {source : String} {bytes : Bytes} :
    entry.checkBlob source bytes = .ok () ↔ ∀ text, entry.crc32 = some text →
      checksum? text = some (Checksum.crc32 bytes).toNat := by
  rw [checkBlob]
  cases entry.crc32 with
  | none => simp
  | some text =>
    simp only [Option.some.injEq, forall_eq']
    cases checksum? text with
    | none => simp
    | some declared =>
      by_cases hsame : declared = (Checksum.crc32 bytes).toNat
      · simp [hsame]
      · simp [hsame]

/-- A type resolves to a valid shape, for a name to the one that it stands for. -/
theorem resolveType_eq_ok (hr : At table [] r) {typeName : String} {shape : Shape}
    (hresolve : entry.resolveType table r = (.ok (typeName, shape), r')) :
    At table [] r' ∧ shape.validate = .ok () ∧
      ∀ name, entry.type = .name name → typeName = name ∧ Stands table name shape := by
  rw [resolveType] at hresolve
  cases htype : entry.type with
  | name name =>
    have hsettles := settles_named hr name
    simp only [htype] at hresolve
    generalize Resolver.named table name r = outcome at hsettles hresolve
    cases hsettles with
    | error _ _ => cases hresolve
    | ok hr' hstands =>
      cases hresolve
      refine ⟨hr', (Shape.validateAt_eq_ok_iff _ Path.root).mpr hstands.2, fun other hother => ?_⟩
      cases hother
      exact ⟨rfl, hstands⟩
  | inline schema =>
    have hsettles := settles_expand hr schema
    simp only [htype] at hresolve
    generalize Resolver.expand (Resolver.named table) schema r = outcome at hsettles hresolve
    cases hsettles with
    | error _ _ => cases hresolve
    | @ok expanded _ hr' _ =>
      simp only at hresolve
      cases hvalid : expanded.validate with
      | error fault => rw [hvalid] at hresolve; cases hresolve
      | ok done =>
        rw [hvalid] at hresolve
        cases hresolve
        refine ⟨hr', hvalid, fun other hother => ?_⟩
        cases hother

/-- What the steps towards a test vector have to come to. -/
theorem toVector_eq_ok {directory typeName : String} {shape : Shape}
    (hvector : entry.toVector tree directory typeName shape = .ok v) :
    v.caseName = entry.name ∧ v.typeName = typeName ∧ v.shape = shape ∧
      tree.read (Files.join directory entry.binary) = .ok v.bytes ∧
      entry.checkBlob (Files.join directory entry.binary) v.bytes = .ok () ∧
      shape.valueOfJson entry.value v.selections = .ok v.value := by
  rw [toVector] at hvector
  cases hread : tree.read (Files.join directory entry.binary) with
  | error e => rw [hread] at hvector; cases hvector
  | ok bytes =>
    simp only [hread, bind_eq_ok_iff] at hvector
    obtain ⟨_, hbytes, done, hcheck, selections, _, hvector⟩ := hvector
    cases hbytes
    cases hvalue : shape.valueOfJson entry.value selections with
    | error e => rw [hvalue] at hvector; cases hvector
    | ok value =>
      rw [hvalue] at hvector
      cases hvector
      exact ⟨rfl, rfl, rfl, rfl, hcheck, hvalue⟩

/-- An entry that loads declares its test vector. -/
theorem declares_of_load (hnamed : ∀ name shape, Stands table name shape → named name = some shape)
    (hr : At table [] r)
    (hload : entry.load tree table (Collection.directoryOf path) r = (.ok v, r')) :
    At table [] r' ∧ Declares tree named path entry v := by
  rw [load] at hload
  generalize hresolve : entry.resolveType table r = outcome at hload
  obtain ⟨result, r₁⟩ := outcome
  cases result with
  | error fault => cases hload
  | ok resolved =>
    obtain ⟨typeName, shape⟩ := resolved
    obtain ⟨hr₁, hvalid, htype⟩ := resolveType_eq_ok hr hresolve
    rw [Prod.mk.injEq] at hload
    obtain ⟨hvector, rfl⟩ := hload
    obtain ⟨hname, rfl, rfl, hblob, hcheck, hvalue⟩ := toVector_eq_ok hvector
    refine ⟨hr₁, hname, hvalid, fun name hentry => ?_, hblob, checkBlob_eq_ok_iff.mp hcheck, hvalue⟩
    obtain ⟨htypeName, hstands⟩ := htype name hentry
    exact ⟨htypeName, hnamed name v.shape hstands⟩

/-- The value of a declared vector can be encoded. -/
theorem Declares.exists_encode (hdeclares : Declares tree named path entry v) :
    ∃ bytes, v.shape.encode v.value v.selections = .ok bytes := by
  have hwell := Shape.wellFormed_of_validate hdeclares.valid
  obtain ⟨bytes, hbytes⟩ :=
    Shape.readsDenoted v.selections hwell _ entry.value v.value hdeclares.value
  exact ⟨bytes, Shape.encode_eq_ok_iff.mpr
    (Shape.writesDenotations v.selections hwell _ bytes v.value hbytes)⟩

end VectorEntry

/-- The entries of manifests in order, each with the path of its manifest. -/
def Collection.entriesOf (files : List ManifestFile) : List (String × VectorEntry) :=
  files.flatMap fun file => file.manifest.vectors.map fun entry => (file.path, entry)

/-- Keys after some are fresh if the first ones are, and the others once those are seen. -/
theorem Shape.fresh_append {α : Type} {seen keys others : List α} :
    Fresh seen (keys ++ others) ↔ Fresh seen keys ∧ Fresh (keys.reverse ++ seen) others := by
  induction keys generalizing seen with
  | nil => simp [Fresh]
  | cons key keys ih =>
    rw [List.cons_append, fresh_cons, fresh_cons, ih, and_assoc, List.reverse_cons,
      List.append_assoc, List.singleton_append]

namespace Corpus

variable {r r' : Resolver}

/-- The entries of one manifest load in order, under names that were not seen before. -/
theorem vectorsOf_eq_ok
    (hnamed : ∀ name shape, Stands table name shape → named name = some shape)
    {entries : List VectorEntry} {seen seen' : List String} {vectors : List TestVector}
    (hr : At table [] r)
    (hload : vectorsOf tree table path entries seen r = .ok (vectors, seen', r')) :
    At table [] r' ∧ Shape.Fresh seen (entries.map VectorEntry.name) ∧
      seen' = (entries.map VectorEntry.name).reverse ++ seen ∧
      List.Forall₂ (VectorEntry.Declares tree named path) entries vectors := by
  induction entries generalizing seen r vectors with
  | nil =>
    cases hload
    exact ⟨hr, ⟨List.nodup_nil, List.forall_mem_nil _⟩, rfl, .nil⟩
  | cons entry entries ih =>
    rw [vectorsOf] at hload
    by_cases hseen : entry.name ∈ seen
    · rw [if_pos hseen] at hload
      cases hload
    · rw [if_neg hseen] at hload
      generalize hentry : entry.load tree table (Collection.directoryOf path) r = outcome at hload
      obtain ⟨result, r₁⟩ := outcome
      cases result with
      | error fault => cases hload
      | ok v =>
        simp only [bind_eq_ok_iff] at hload
        obtain ⟨⟨rest, seen₁, r₂⟩, hrest, hload⟩ := hload
        cases hload
        obtain ⟨hr₁, hdeclares⟩ := VectorEntry.declares_of_load hnamed hr hentry
        obtain ⟨hr₂, hfresh, rfl, hothers⟩ := ih hr₁ hrest
        refine ⟨hr₂, ?_, ?_, .cons hdeclares hothers⟩
        · rw [List.map_cons, Shape.fresh_cons]
          exact ⟨hseen, hfresh⟩
        · rw [List.map_cons, List.reverse_cons, List.append_assoc, List.singleton_append]

/-- The entries of all manifests load in order, under names that were not seen before. -/
theorem vectorsFrom_eq_ok
    (hnamed : ∀ name shape, Stands table name shape → named name = some shape)
    {files : List ManifestFile} {seen : List String} {vectors : List TestVector}
    (hr : At table [] r) (hload : vectorsFrom tree table files seen r = .ok vectors) :
    Shape.Fresh seen ((Collection.entriesOf files).map fun origin => origin.2.name) ∧
      List.Forall₂ (fun origin v => VectorEntry.Declares tree named origin.1 origin.2 v)
        (Collection.entriesOf files) vectors := by
  induction files generalizing seen r vectors with
  | nil =>
    cases hload
    exact ⟨⟨List.nodup_nil, List.forall_mem_nil _⟩, .nil⟩
  | cons file files ih =>
    simp only [vectorsFrom, bind_eq_ok_iff] at hload
    obtain ⟨⟨first, seen₁, r₁⟩, hfirst, others, hothers, hload⟩ := hload
    cases hload
    obtain ⟨hr₁, hfresh, rfl, hdeclares⟩ := vectorsOf_eq_ok hnamed hr hfirst
    obtain ⟨hfresh', hdeclares'⟩ := ih hr₁ hothers
    rw [Collection.entriesOf, List.flatMap_cons]
    refine ⟨?_, ?_⟩
    · rw [List.map_append, List.map_map, Shape.fresh_append]
      exact ⟨hfresh, hfresh'⟩
    · refine List.rel_append ?_ hdeclares'
      exact List.forall₂_map_left_iff.mpr hdeclares

/-- What manifests load to: each entry declares its vector, names are distinct and types valid. -/
theorem ofManifests_eq_ok {files : List ManifestFile} {corpus : Corpus}
    (hload : ofManifests tree path files = .ok corpus) :
    List.Forall₂ (fun origin v => VectorEntry.Declares tree corpus.typeNamed? origin.1 origin.2 v)
        (Collection.entriesOf files) corpus.vectors ∧
      ((Collection.entriesOf files).map fun origin => origin.2.name).Nodup ∧
      ∀ entry ∈ corpus.types, entry.2.validate = .ok () := by
  simp only [ofManifests, bind_eq_ok_iff] at hload
  obtain ⟨table, _, hload⟩ := hload
  have hall : Alike (At table []) _ _ (all table _) (all table _) := alike_all (Table.keys table)
  have hsettles := (hall fresh at_fresh).2
  generalize all table (Table.keys table) fresh = outcome at hsettles hload
  cases hsettles with
  | error _ _ => cases hload
  | @ok types _ hr hall =>
    simp only [bind_eq_ok_iff] at hload
    obtain ⟨vectors, hvectors, hload⟩ := hload
    have hcorpus := Except.ok.inj hload
    have htypes : corpus.types = types := by rw [← hcorpus]
    have hsame : corpus.vectors = vectors := by rw [← hcorpus]
    rw [← htypes] at hall
    rw [← hsame] at hvectors
    obtain ⟨hkeys, htypes⟩ := hall
    obtain ⟨hfresh, hdeclares⟩ :=
      vectorsFrom_eq_ok (fun _ _ => typeNamed?_of_stands hkeys htypes) hr hvectors
    refine ⟨hdeclares, Shape.fresh_nil.mp hfresh, fun entry hentry => ?_⟩
    exact (Shape.validateAt_eq_ok_iff entry.2 Path.root).mpr (htypes entry hentry).2

/-- A corpus that loads is what its manifests come to. -/
theorem load_eq_ok {corpus : Corpus} (hload : load tree path = .ok corpus) :
    ofManifests tree (manifestPath tree path) (loadFrom tree path).1 = .ok corpus := by
  rw [load] at hload
  rw [loadFrom] at hload ⊢
  generalize Collection.ofPath tree (manifestPath tree path) = outcome at hload ⊢
  obtain ⟨c, fault⟩ := outcome
  cases fault with
  | some e => cases hload
  | none => exact hload

end Corpus

/-- Where the canonical codec can encode a value, what it finds wrong is between bytes. -/
theorem TestVector.detail_of_mem_oracleEncode {v : TestVector} {f : Finding}
    (hencode : ∃ bytes, v.shape.encode v.value v.selections = .ok bytes)
    (hf : f ∈ v.oracleEncode) : ∃ mismatch, f.detail = .bytes mismatch := by
  obtain ⟨bytes, hencode⟩ := hencode
  simp only [oracleEncode, hencode, byteFindings, Option.mem_toList, Option.map_eq_some_iff] at hf
  obtain ⟨mismatch, _, rfl⟩ := hf
  exact ⟨mismatch, rfl⟩

/-- A loaded corpus has one vector for each entry of its manifests, in order and under distinct
names. Entry by entry, the shape is valid and for a named type the one the corpus has under the
name, a declared checksum is that of the blob, and the value can be encoded, so that no run reports
an error of the canonical codec when it encodes. -/
theorem Corpus.load_wellFormed (tree : FileTree) (path : String) (corpus : Corpus)
    (hload : Corpus.load tree path = .ok corpus) :
    List.Forall₂ (fun origin v => VectorEntry.Declares tree corpus.typeNamed? origin.1 origin.2 v)
        (Collection.entriesOf (Corpus.loadFrom tree path).1) corpus.vectors ∧
      (corpus.vectors.map TestVector.caseName).Nodup ∧
      (∀ entry ∈ corpus.types, entry.2.validate = .ok ()) ∧
      (∀ v ∈ corpus.vectors, v.shape.validate = .ok () ∧
        ∃ bytes, v.shape.encode v.value v.selections = .ok bytes) ∧
      ∀ c adapters answers report,
        Parity.runAnswered c adapters answers corpus = .returned (.ok report) →
        ∀ result ∈ report.results, ∀ f ∈ result.findings, f.subject = .oracle →
          f.phase = .encode → ∃ mismatch, f.detail = .bytes mismatch := by
  obtain ⟨hdeclares, hnames, htypes⟩ := ofManifests_eq_ok (load_eq_ok hload)
  have hvectors : ∀ v ∈ corpus.vectors, v.shape.validate = .ok () ∧
      ∃ bytes, v.shape.encode v.value v.selections = .ok bytes := by
    intro v hv
    obtain ⟨index, hindex, rfl⟩ := List.mem_iff_getElem.mp hv
    have hdeclared := hdeclares.get (hdeclares.length_eq ▸ hindex) hindex
    exact ⟨hdeclared.valid, hdeclared.exists_encode⟩
  refine ⟨hdeclares, ?_, htypes, hvectors, ?_⟩
  · have hsame : ((Collection.entriesOf (loadFrom tree path).1).map fun origin => origin.2.name) =
        corpus.vectors.map TestVector.caseName := by
      rw [← List.forall₂_eq_eq_eq, List.forall₂_map_left_iff, List.forall₂_map_right_iff]
      exact hdeclares.imp fun _ _ hdeclared => hdeclared.name.symm
    rw [← hsame]
    exact hnames
  · intro c adapters answers report hrun result hresult f hf hsubject hphase
    obtain ⟨_, hresults⟩ := Parity.results_of_runAnswered hrun
    obtain ⟨index, v, hv, hevaluate⟩ := Parity.vector_of_result hresults hresult
    have habout : f ∈ result.about .encode .oracle := mem_select.mpr ⟨hf, hphase, hsubject⟩
    rw [TestVector.about_oracle hevaluate] at habout
    exact TestVector.detail_of_mem_oracleEncode (hvectors v (List.mem_of_getElem? hv)).2 habout

/-- A corpus that declares `u8` as sixteen bits loads, and a vector of that type is of sixteen bits. -/
theorem Corpus.load_wellFormed_shadowing :
    ∃ corpus, Corpus.load Samples.shadowingTree "corpus.json" = .ok corpus ∧
      (corpus.vectors.map fun v => (v.caseName, v.typeName, v.bytes)) = [("one", "u8", [2, 1])] ∧
      List.Forall₂ (fun origin v => VectorEntry.Declares Samples.shadowingTree
          corpus.typeNamed? origin.1 origin.2 v)
        (Collection.entriesOf (Corpus.loadFrom Samples.shadowingTree "corpus.json").1)
        corpus.vectors ∧
      (∀ v ∈ corpus.vectors, v.shape.validate = .ok () ∧
        ∃ bytes, v.shape.encode v.value v.selections = .ok bytes) ∧
      ∃ report, Parity.run .default [.reference "one"] corpus = .returned (.ok report) ∧
        ∀ result ∈ report.results, ∀ f ∈ result.findings, f.subject = .oracle →
          f.phase = .encode → ∃ mismatch, f.detail = .bytes mismatch := by
  have hloads : ((Corpus.load Samples.shadowingTree "corpus.json").toOption.map fun corpus =>
      corpus.vectors.map fun v => (v.caseName, v.typeName, v.bytes)) =
        some [("one", "u8", [2, 1])] := by decide +kernel
  obtain ⟨corpus, hsome, hshown⟩ := Option.map_eq_some_iff.mp hloads
  have hload : Corpus.load Samples.shadowingTree "corpus.json" = .ok corpus := by
    cases hresult : Corpus.load Samples.shadowingTree "corpus.json" with
    | error fault => rw [hresult] at hsome; cases hsome
    | ok other => rw [hresult] at hsome; cases hsome; rfl
  obtain ⟨hdeclares, _, _, hvectors, hruns⟩ := load_wellFormed _ _ _ hload
  obtain ⟨report, hrun⟩ := (Parity.exists_report_iff .default [.reference "one"]
    (fun _ v a => a.answers v) corpus).mpr ⟨by decide, by decide, Or.inr (by decide)⟩
  exact ⟨corpus, hload, hshown, hdeclares, hvectors, report, hrun, hruns _ _ _ _ hrun⟩

end WireParity
