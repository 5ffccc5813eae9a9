import WireParity.Parity.Config
import WireParity.Shape.Selections
import WireParity.Value.Basic

/-!
# Test vectors

A test vector ties a value of a shape to its bytes. A corpus is a list of vectors whose case names
differ, with the named types and the settings that came with them.
-/

namespace WireParity

/-- A test case: a value, its shape, and the bytes that stand for it. -/
structure TestVector where
  caseName : String
  typeName : String
  shape : Shape
  value : Value
  bytes : Bytes
  selections : Selections
  allowTrailing : Bool
  description : Option String
  tags : List String
  source : String

namespace TestVector

/-- A vector made in memory, named after the short text of its shape. -/
def plain (caseName : String) (shape : Shape) (value : Value) (bytes : Bytes) : TestVector where
  caseName
  typeName := shape.text
  shape
  value
  bytes
  selections := .empty
  allowTrailing := false
  description := none
  tags := []
  source := ""

end TestVector

/-- A collection of test vectors. -/
structure Corpus where
  root : String
  settings : Settings
  types : Table Shape
  vectors : List TestVector

namespace Corpus

/-- The vectors whose case names start in a given way. -/
def filter (c : Corpus) (start : String) : Corpus :=
  { c with vectors := c.vectors.filter fun v => Text.beginsWith start v.caseName }

/-- The vector with a case name. -/
def get? (c : Corpus) (caseName : String) : Option TestVector :=
  c.vectors.find? fun v => v.caseName == caseName

/-- The shape of a named type, or of a scalar by the name of its kind. -/
def typeNamed? (c : Corpus) (name : String) : Option Shape :=
  (Table.find? name c.types).or ((ScalarKind.ofName? name).map .scalar)

end Corpus

end WireParity
