import WireParity.Shape.Layer

/-!
# Schemas

A schema is a shape in which named types may stand for parts. In JSON a reference is one more form
beside those of shapes.
-/

namespace WireParity

/-- A type as a manifest writes it. -/
inductive Schema
  | ref (name : String)
  | scalar (kind : ScalarKind)
  | array (elem : Schema) (count : UInt64)
  | struct (fields : List (Named Schema))
  | enum (variants : List (Variant Schema))
  | union (members : List (Named Schema))
deriving Repr

namespace Schema

/-- A schema of one more level. -/
def ofLayer : Layer Schema → Schema
  | .scalar kind => scalar kind
  | .array elem count => array elem count
  | .struct fields => struct fields
  | .enum variants => enum variants
  | .union members => union members

/-- The schema that JSON nested no deeper than `depth` stands for. -/
def readWithin? : Nat → WrittenJson → Option Schema
  | 0, _ => none
  | depth + 1, json =>
    json.choice?.bind fun choice =>
      if choice.1 = "ref" then choice.2.text?.map ref
      else (Layer.read? (readWithin? depth) choice.1 choice.2).map ofLayer

/-- The schema that JSON stands for. -/
def ofJson? (json : WrittenJson) : Option Schema := readWithin? json.depth json

end Schema

/-- The type of a vector: a name, or a schema on the spot. -/
inductive TypeRef
  | name (name : String)
  | inline (schema : Schema)
deriving Repr

namespace TypeRef

/-- The type that JSON stands for: a text is a name. All of it has to be readable, also what is
ignored. -/
def ofJson? (json : WrittenJson) : Option TypeRef :=
  if json.settle.isNone then none
  else match json with
    | .string n => some (.name n)
    | other => (Schema.ofJson? other).map .inline

end TypeRef

end WireParity
