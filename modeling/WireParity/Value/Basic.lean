import WireParity.Value.Scalar

/-!
# Values

A value does not know its shape. A union's value is the value of its member, so nothing stands for
a union here.
-/

namespace WireParity

/-- A value. -/
inductive Value
  | scalar (s : Scalar)
  | array (items : List Value)
  | struct (fields : List (Named Value))
  | enum (tag : UInt8) (payload : Option Value)

namespace Value

/-- The kind of a scalar value. -/
def scalarKind? : Value → Option ScalarKind
  | scalar s => some s.kind
  | _ => none

/-- The short name of the form of a value. -/
def kindName : Value → String
  | scalar s => s.kind.name
  | array _ => "array"
  | struct _ => "struct"
  | enum _ _ => "enum"

/-- The value of the first field with a name. -/
def fieldIn? (name : String) : List (Named Value) → Option Value
  | [] => none
  | ⟨other, value⟩ :: rest => if other = name then some value else fieldIn? name rest

/-- The value of a struct's field with a name. -/
def field? (name : String) : Value → Option Value
  | struct fields => fieldIn? name fields
  | _ => none

mutual

/-- The text of a value. -/
def text : Value → String
  | scalar s => s.text
  | array items => "[" ++ ", ".intercalate (itemTexts items) ++ "]"
  | struct fields => "\x7b" ++ ", ".intercalate (fieldTexts fields) ++ "\x7d"
  | enum tag none => "#" ++ toString tag
  | enum tag (some payload) => "#" ++ toString tag ++ "(" ++ payload.text ++ ")"

/-- The texts of the items of an array. -/
def itemTexts : List Value → List String
  | [] => []
  | item :: rest => item.text :: itemTexts rest

/-- The texts of the fields of a struct. -/
def fieldTexts : List (Named Value) → List String
  | [] => []
  | ⟨name, value⟩ :: rest => (name ++ ": " ++ value.text) :: fieldTexts rest

end

mutual

/-- The value with the bytes of every scalar in reverse order. -/
def swap : Value → Value
  | scalar s => scalar s.swap
  | array items => array (swapItems items)
  | struct fields => struct (swapFields fields)
  | enum tag none => enum tag none
  | enum tag (some payload) => enum tag (some payload.swap)

/-- Swaps the items of an array. -/
def swapItems : List Value → List Value
  | [] => []
  | item :: rest => item.swap :: swapItems rest

/-- Swaps the fields of a struct. -/
def swapFields : List (Named Value) → List (Named Value)
  | [] => []
  | ⟨name, value⟩ :: rest => ⟨name, value.swap⟩ :: swapFields rest

end

end Value

end WireParity
