import WireParity.Corpus.Schema
import WireParity.Json.Reader
import WireParity.Parity.Config

/-!
# Manifests

A manifest lists types, vectors and further manifests. Nothing in it is resolved: types are
names, blobs are paths and values are JSON. Its records are closed, so a misspelt key is refused.
-/

namespace WireParity

/-- A test vector as a manifest has it. -/
structure VectorEntry where
  name : String
  type : TypeRef
  binary : String
  value : Json
  activeVariant : Option String
  variants : Table String
  allowTrailing : Bool
  crc32 : Option String
  description : Option String
  tags : List String

/-- A manifest. -/
structure Manifest where
  version : Nat
  settings : Settings
  includes : List String
  types : Table Schema
  vectors : List VectorEntry

namespace Settings

/-- The settings in JSON. -/
def ofJson? (json : WrittenJson) : Option Settings :=
  match json.record? true ["mode", "timeout_ms", "roundtrip"] with
  | some [mode, timeout, roundtrip] => do
    let mode ← mode.optional WrittenJson.text?
    let timeoutMs ← timeout.optional (WrittenJson.natBelow? (Nat.pow 2 64))
    let roundtrip ← roundtrip.optional WrittenJson.bool?
    return { mode, timeoutMs, roundtrip }
  | _ => none

end Settings

namespace VectorEntry

/-- The fields of an entry, in order. -/
def keys : List String :=
  ["name", "type", "binary", "value", "active_variant", "variants", "allow_trailing", "crc32",
   "description", "tags"]

/-- An entry in JSON. -/
def ofJson? (json : WrittenJson) : Option VectorEntry :=
  match json.record? true keys with
  | some [name, type, binary, value, active, variants, trailing, crc32, description, tags] => do
    let optionalText := Slot.orDefault none (Slot.nullable WrittenJson.text?)
    let name ← name.required WrittenJson.text?
    let type ← type.required TypeRef.ofJson?
    let binary ← binary.required WrittenJson.text?
    let value ← value.required WrittenJson.settle
    let activeVariant ← optionalText active
    let variants ← variants.orDefault [] (WrittenJson.table? WrittenJson.text?)
    let allowTrailing ← trailing.orDefault false WrittenJson.bool?
    let crc32 ← optionalText crc32
    let description ← optionalText description
    let tags ← tags.orDefault [] (WrittenJson.list? WrittenJson.text?)
    return { name, type, binary, value, activeVariant, variants, allowTrailing, crc32,
             description, tags }
  | _ => none

end VectorEntry

namespace Manifest

/-- The version of the format. -/
def currentVersion : Nat := 1

/-- The name of the manifest in a corpus directory. -/
def fileName : String := "corpus.json"

/-- A manifest in JSON. -/
def ofJson? (json : WrittenJson) : Option Manifest :=
  match json.record? true ["version", "settings", "include", "types", "vectors"] with
  | some [version, settings, includes, types, vectors] => do
    let version ← version.required (WrittenJson.natBelow? (Nat.pow 2 32))
    let settings ← settings.orDefault .unset Settings.ofJson?
    let includes ← includes.orDefault [] (WrittenJson.list? WrittenJson.text?)
    let types ← types.orDefault [] (WrittenJson.table? Schema.ofJson?)
    let vectors ← vectors.orDefault [] (WrittenJson.list? VectorEntry.ofJson?)
    return { version, settings, includes, types, vectors }
  | _ => none

/-- The manifest that a text stands for. -/
def parse? (text : String) : Option Manifest := (Json.ofText? text).bind ofJson?

end Manifest

end WireParity
