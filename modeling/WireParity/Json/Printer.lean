import WireParity.Json.Basic
import WireParity.Bytes.Hex
import WireParity.Number.DecimalText

/-!
# Writing JSON

A value is written either without any space or over several lines, with two blanks of indentation
for each level. Members come in the order in which they are given.
-/

namespace WireParity.Json

/-- Numbers are written out from 10⁻⁵ up to 10¹⁶, a positive exponent has a sign, and of two
equally near decimals the even one is taken. -/
def numberStyle : DecimalStyle := ⟨-4, 16, true, .even⟩

end WireParity.Json

namespace WireParity.JsonNumber

/-- The text of a number. -/
def text : JsonNumber → String
  | .int n => toString n
  | .float bits => Json.numberStyle.finite .binary64 bits.toNat

end WireParity.JsonNumber

namespace WireParity.Json

/-- How a character stands inside quotes: control characters, quotes and backslashes are escaped. -/
def quotedChar (c : Char) : String :=
  match c with
  | '"' => "\\\""
  | '\\' => "\\\\"
  | '\x08' => "\\b"
  | '\x0c' => "\\f"
  | '\n' => "\\n"
  | '\r' => "\\r"
  | '\t' => "\\t"
  | c => if c < ' ' then "\\u" ++ Hex.word 4 c.toNat else c.toString

/-- A text in quotes. -/
def quoted (s : String) : String :=
  "\"" ++ String.join (s.toList.map quotedChar) ++ "\""

end WireParity.Json

namespace WireParity.WrittenJson

/-- What stands around and between the entries of a container. -/
structure Spacing where
  opened : String
  between : String
  closed : String
  afterColon : String

/-- No space at all. -/
def tight : Spacing := ⟨"", ",", "", ":"⟩

/-- One entry to a line, for a container at the given level. -/
def lines (level : Nat) : Spacing :=
  let indent (n : Nat) := "\n" ++ String.ofList (List.replicate (2 * n) ' ')
  ⟨indent (level + 1), "," ++ indent (level + 1), indent level, ": "⟩

/-- A container around its entries. An empty one has nothing inside. -/
def enclose (left right : String) (spacing : Spacing) (entries : List String) : String :=
  if entries.isEmpty then left ++ right
  else left ++ spacing.opened ++ spacing.between.intercalate entries ++ spacing.closed ++ right

mutual

/-- The text of a value at a level of nesting. -/
def render (spacing : Nat → Spacing) (level : Nat) : WrittenJson → String
  | .null => "null"
  | .bool b => if b then "true" else "false"
  | .number n => n.text
  | .string s => Json.quoted s
  | .array items => enclose "[" "]" (spacing level) (renderItems spacing (level + 1) items)
  | .object members =>
    enclose "\x7b" "\x7d" (spacing level) (renderMembers spacing (level + 1) members)
  | .unreadable => ""

/-- The texts of the items of an array. -/
def renderItems (spacing : Nat → Spacing) (level : Nat) : List WrittenJson → List String
  | [] => []
  | item :: rest => item.render spacing level :: renderItems spacing level rest

/-- The texts of the members of an object. -/
def renderMembers (spacing : Nat → Spacing) (level : Nat) :
    List (String × WrittenJson) → List String
  | [] => []
  | (key, value) :: rest =>
    (Json.quoted key ++ (spacing level).afterColon ++ value.render spacing level) ::
      renderMembers spacing level rest

end

/-- The text without spaces. -/
def compact (v : WrittenJson) : String := v.render (fun _ => tight) 0

/-- The text over several lines. -/
def pretty (v : WrittenJson) : String := v.render lines 0

end WireParity.WrittenJson

namespace WireParity.Json

/-- The text of a value without spaces. -/
def compact (v : Json) : String := v.written.compact

/-- The text of a value over several lines. -/
def pretty (v : Json) : String := v.written.pretty

end WireParity.Json
