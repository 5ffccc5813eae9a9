import WireParity.Shape.Layer

/-!
# Shapes in JSON

A shape is written with the name of its form for the only key, the parts of it in order of
declaration, and without the payload of a variant that has none.
-/

namespace WireParity

namespace ScalarKind

/-- A kind in JSON. -/
def written (kind : ScalarKind) : WrittenJson := .object [("primitive", .string kind.name)]

end ScalarKind

namespace Shape

/-- A form of shape in JSON. -/
def form (name : String) (parts : List (String × WrittenJson)) : WrittenJson :=
  .object [(name, .object parts)]

mutual

/-- A shape in JSON. -/
def written : Shape → WrittenJson
  | scalar kind => kind.written
  | array elem count =>
    form "fixed_array" [("elem", elem.written), ("count", .number (.int count.toNat))]
  | struct fields => form "struct" [("fields", .array (writtenNamed fields))]
  | enum variants => form "enum" [("variants", .array (writtenVariants variants))]
  | union members => form "union" [("variants", .array (writtenNamed members))]

/-- The fields of a struct or the members of a union in JSON. -/
def writtenNamed : List (Named Shape) → List WrittenJson
  | [] => []
  | ⟨name, shape⟩ :: rest =>
    .object [("name", .string name), ("type", shape.written)] :: writtenNamed rest

/-- The variants of an enum in JSON. -/
def writtenVariants : List (Variant Shape) → List WrittenJson
  | [] => []
  | ⟨name, tag, none⟩ :: rest =>
    .object [("name", .string name), ("tag", .number (.int tag.toNat))] :: writtenVariants rest
  | ⟨name, tag, some shape⟩ :: rest =>
    .object [("name", .string name), ("tag", .number (.int tag.toNat)),
      ("payload", shape.written)] :: writtenVariants rest

end

/-- A shape of one more level. -/
def ofLayer : Layer Shape → Shape
  | .scalar kind => scalar kind
  | .array elem count => array elem count
  | .struct fields => struct fields
  | .enum variants => enum variants
  | .union members => union members

/-- The shape that JSON nested no deeper than `depth` stands for. -/
def readWithin? : Nat → WrittenJson → Option Shape
  | 0, _ => none
  | depth + 1, json =>
    json.choice?.bind fun choice =>
      (Layer.read? (readWithin? depth) choice.1 choice.2).map ofLayer

/-- The shape that JSON stands for. -/
def ofJson? (json : WrittenJson) : Option Shape := readWithin? json.depth json

end Shape

namespace Variant

/-- A variant in JSON. -/
def written (v : Variant Shape) : WrittenJson :=
  .object ([("name", .string v.name), ("tag", .number (.int v.tag.toNat))] ++
    (v.payload.map fun shape => ("payload", shape.written)).toList)

end Variant

namespace Named

/-- A field or member in JSON. -/
def written (n : Named Shape) : WrittenJson :=
  .object [("name", .string n.name), ("type", n.item.written)]

end Named

end WireParity
