import WireParity.Bytes.Checksum
import WireParity.Codec.FromJson
import WireParity.Corpus.Basic
import WireParity.Corpus.Manifest
import WireParity.Corpus.Resolver
import WireParity.Files.Tree

/-!
# Loading a corpus

Loading is all or nothing. The manifests are read first, each before those that it includes; then
the types of all of them are resolved in one table; then the vectors are taken in order. A manifest
may be reached only once, by whichever path.
-/

namespace WireParity

/-- Why an entry is not a test vector. -/
inductive EntryFault
  | type (fault : TypeFault)
  | inlineType (error : CodecError)
  | unreadable (path : String) (error : FileError)
  | checksumNotHex (text : String)
  | checksumMismatch (path : String) (declared actual : Nat)
  | conflictingVariant (active existing : String)
  | value (error : CodecError)
deriving Repr, DecidableEq

/-- The wording of a fault. -/
def EntryFault.message : EntryFault → String
  | .type fault => fault.message
  | .inlineType error => error.message
  | .unreadable path error => s!"cannot read {path}: {error.message}"
  | .checksumNotHex text => s!"crc32 '{text}' is not hex"
  | .checksumMismatch path declared actual =>
    s!"crc32 mismatch for {path}: manifest says {Hex.word 8 declared}, blob is {Hex.word 8 actual}"
  | .conflictingVariant active existing =>
    s!"active_variant '{active}' conflicts with variants[\"\"] = '{existing}'"
  | .value error => "value: " ++ error.message

/-- Why a corpus does not load. -/
inductive LoadFault
  | file (error : FileError)
  | notManifest
  | version (found : Nat)
  | includedTwice
  | duplicateType (name : String)
  | type (fault : TypeFault)
  | duplicateCase (name : String)
  | entry (name : String) (fault : EntryFault)
deriving Repr, DecidableEq

/-- The wording of a fault. -/
def LoadFault.message : LoadFault → String
  | .file error => error.message
  | .notManifest => "invalid manifest JSON"
  | .version found =>
    s!"unsupported manifest version {found} (expected {Manifest.currentVersion})"
  | .includedTwice => "manifest included more than once"
  | .duplicateType name => s!"type '{name}' declared more than once"
  | .type fault => fault.message
  | .duplicateCase name => s!"duplicate case name '{name}'"
  | .entry name fault => s!"{name}: {fault.message}"

/-- Why there is no run: a corpus does not load, or a configuration makes no sense. -/
inductive RunError
  | load (path : String) (fault : LoadFault)
  | config (fault : ConfigFault)
deriving Repr, DecidableEq

/-- The wording of an error. -/
def RunError.message : RunError → String
  | .load path fault => s!"failed to load corpus {path}: {fault.message}"
  | .config fault => "invalid configuration: " ++ fault.message

/-- A manifest and the path it was read from. -/
structure ManifestFile where
  path : String
  manifest : Manifest

/-- The manifests read so far, in order, and the names of all files that were reached. -/
structure Collection where
  manifests : List ManifestFile
  reached : List (List String)

namespace Collection

/-- Nothing is read yet. -/
def empty : Collection := ⟨[], []⟩

/-- The directory that paths in a file are relative to. -/
def directoryOf (path : String) : String := (Files.parent? path).getD "."

/-- The manifest at a path. -/
def readManifest (tree : FileTree) (path : String) : Except LoadFault Manifest :=
  match tree.readText path with
  | .error e => .error (.file e)
  | .ok text =>
    match Manifest.parse? text with
    | none => .error .notManifest
    | some manifest =>
      if manifest.version = Manifest.currentVersion then .ok manifest
      else .error (.version manifest.version)

/-- Marks a file as reached, unless it was reached before. -/
def reach? (tree : FileTree) (path : String) (c : Collection) : Option Collection :=
  match tree.canonical? path with
  | none => some c
  | some names =>
    if names ∈ c.reached then none else some { c with reached := names :: c.reached }

/-- Reads the manifests at paths, one after another, with what they include. -/
def addAll (add : String → Collection → Collection × Option RunError) :
    List String → Collection → Collection × Option RunError
  | [], c => (c, none)
  | path :: rest, c =>
    match add path c with
    | (c, none) => addAll add rest c
    | (c, some e) => (c, some e)

/-- Reads the manifest at a path and then, in order, those that it includes, where manifests are
included at most `depth` deep. A tree has only so many files, so a deeper inclusion reaches one
again. -/
def addWithin (tree : FileTree) : Nat → String → Collection → Collection × Option RunError
  | 0, path, c => (c, some (.load path .includedTwice))
  | depth + 1, path, c =>
    match c.reach? tree path with
    | none => (c, some (.load path .includedTwice))
    | some c =>
      match readManifest tree path with
      | .error fault => (c, some (.load path fault))
      | .ok manifest =>
        addAll (addWithin tree depth)
          (manifest.includes.map (Files.join (directoryOf path)))
          { c with manifests := c.manifests ++ [⟨path, manifest⟩] }

/-- The manifests reached from a path, up to the first that cannot be read. -/
def ofPath (tree : FileTree) (path : String) : Collection × Option RunError :=
  addWithin tree (tree.files.length + 1) path empty

/-- Adds the types of one manifest to a table. -/
def addTypes (path : String) (table : Table Schema) :
    List (String × Schema) → Except RunError (Table Schema)
  | [] => .ok table
  | (name, schema) :: rest =>
    if Table.contains name table then .error (.load path (.duplicateType name))
    else addTypes path (Table.insert name schema table) rest

/-- The types of manifests in one table. -/
def typesFrom (table : Table Schema) : List ManifestFile → Except RunError (Table Schema)
  | [] => .ok table
  | file :: rest => do
    let table ← addTypes file.path table file.manifest.types
    typesFrom table rest

end Collection

namespace VectorEntry

/-- A prefix of a text taken away as often as it is there. -/
def dropAll (start : List Char) : Nat → List Char → List Char
  | 0, text => text
  | count + 1, text =>
    if start.isPrefixOf text then dropAll start count (text.drop start.length) else text

/-- A checksum in hexadecimal, with or without `0x` before it. -/
def checksum? (text : String) : Option Nat :=
  let chars := text.toList
  let bare := dropAll ['0', 'X'] chars.length (dropAll ['0', 'x'] chars.length chars)
  Hex.numeralBelow? (Nat.pow 2 32) bare

/-- Checks the checksum of a blob, if one is declared. -/
def checkBlob (entry : VectorEntry) (path : String) (bytes : Bytes) : Except EntryFault Unit :=
  match entry.crc32 with
  | none => .ok ()
  | some text =>
    match checksum? text with
    | none => .error (.checksumNotHex text)
    | some declared =>
      let actual := (Checksum.crc32 bytes).toNat
      if declared = actual then .ok () else .error (.checksumMismatch path declared actual)

/-- The selections of an entry. The active variant is one for the root, and has to agree with one
that is there already. -/
def selections (entry : VectorEntry) : Except EntryFault Selections :=
  let chosen := Selections.ofList entry.variants
  match entry.activeVariant with
  | none => .ok chosen
  | some active =>
    match chosen.get? Path.root with
    | some existing =>
      if existing = active then .ok (chosen.insert Path.root active)
      else .error (.conflictingVariant active existing)
    | none => .ok (chosen.insert Path.root active)

/-- The name and shape of an entry's type, and the resolver afterwards. -/
def resolveType (table : Table Schema) (entry : VectorEntry) (r : Resolver) :
    Except EntryFault (String × Shape) × Resolver :=
  match entry.type with
  | .name name =>
    match Resolver.named table name r with
    | (.ok shape, r) => (.ok (name, shape), r)
    | (.error fault, r) => (.error (.type fault), r)
  | .inline schema =>
    match Resolver.expand (Resolver.named table) schema r with
    | (.error fault, r) => (.error (.type fault), r)
    | (.ok shape, r) =>
      match shape.validate with
      | .error e => (.error (.inlineType e), r)
      | .ok () => (.ok (shape.text, shape), r)

/-- The test vector of an entry whose type is resolved. Its blob lies under a directory. -/
def toVector (tree : FileTree) (directory : String) (entry : VectorEntry)
    (typeName : String) (shape : Shape) : Except EntryFault TestVector := do
  let source := Files.join directory entry.binary
  let bytes ← match tree.read source with
    | .ok bytes => .ok bytes
    | .error e => .error (.unreadable source e)
  entry.checkBlob source bytes
  let selections ← entry.selections
  let value ← match shape.valueOfJson entry.value selections with
    | .ok value => .ok value
    | .error e => .error (.value e)
  return {
    caseName := entry.name
    typeName
    shape
    value
    bytes
    selections
    allowTrailing := entry.allowTrailing
    description := entry.description
    tags := entry.tags
    source }

/-- The test vector of an entry, and the resolver afterwards. -/
def load (tree : FileTree) (table : Table Schema) (directory : String) (entry : VectorEntry)
    (r : Resolver) : Except EntryFault TestVector × Resolver :=
  match entry.resolveType table r with
  | (.error fault, r) => (.error fault, r)
  | (.ok (typeName, shape), r) => (entry.toVector tree directory typeName shape, r)

end VectorEntry

namespace Corpus

/-- The test vectors of the entries of one manifest, after those with the names seen before, with
the names seen and the resolver afterwards. -/
def vectorsOf (tree : FileTree) (table : Table Schema) (path : String) :
    List VectorEntry → List String → Resolver →
    Except RunError (List TestVector × List String × Resolver)
  | [], seen, r => .ok ([], seen, r)
  | entry :: rest, seen, r =>
    if entry.name ∈ seen then .error (.load path (.duplicateCase entry.name))
    else
      match entry.load tree table (Collection.directoryOf path) r with
      | (.error fault, _) => .error (.load path (.entry entry.name fault))
      | (.ok vector, r) => do
        let (vectors, seen, r) ← vectorsOf tree table path rest (entry.name :: seen) r
        return (vector :: vectors, seen, r)

/-- The test vectors of manifests in order. -/
def vectorsFrom (tree : FileTree) (table : Table Schema) :
    List ManifestFile → List String → Resolver → Except RunError (List TestVector)
  | [], _, _ => .ok []
  | file :: rest, seen, r => do
    let (vectors, seen, r) ← vectorsOf tree table file.path file.manifest.vectors seen r
    let others ← vectorsFrom tree table rest seen r
    return vectors ++ others

/-- The corpus of the manifests that were read from the main one at a path. -/
def ofManifests (tree : FileTree) (path : String) (manifests : List ManifestFile) :
    Except RunError Corpus := do
  let table ← Collection.typesFrom [] manifests
  match Resolver.all table (Table.keys table) .fresh with
  | (.error fault, _) => .error (.load path (.type fault))
  | (.ok types, r) =>
    let vectors ← vectorsFrom tree table manifests [] r
    return {
      root := (Files.parent? path).getD ""
      settings := Settings.merged (manifests.map fun file => file.manifest.settings)
      types
      vectors }

/-- The path of the main manifest: a directory holds it under a fixed name. -/
def manifestPath (tree : FileTree) (path : String) : String :=
  if tree.isDirectory path then Files.join path Manifest.fileName else path

/-- A corpus from a directory or a manifest, with the manifests that were read on the way. -/
def loadFrom (tree : FileTree) (path : String) : List ManifestFile × Except RunError Corpus :=
  let main := manifestPath tree path
  match Collection.ofPath tree main with
  | (c, some e) => (c.manifests, .error e)
  | (c, none) => (c.manifests, ofManifests tree main c.manifests)

/-- Loads a corpus from a directory or a manifest. -/
def load (tree : FileTree) (path : String) : Except RunError Corpus := (loadFrom tree path).2

/-- The path that stands for a corpus made in memory. -/
def memoryPath : String := "<memory>"

/-- A corpus of given vectors, whose case names have to differ. -/
def ofVectors (vectors : List TestVector) : Except RunError Corpus :=
  match Config.repeatedName? [] (vectors.map TestVector.caseName) with
  | some name => .error (.load memoryPath (.duplicateCase name))
  | none => .ok { root := "", settings := .unset, types := [], vectors }

end Corpus

end WireParity
