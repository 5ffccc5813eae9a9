import WireParity.Bytes.Hex

/-!
# Text on a terminal

Escape sequences take no room: one begins with the escape character and ends with the next `m`.
Every other character takes one column.
-/

namespace WireParity.Terminal

/-- The columns that characters take, inside or outside of an escape sequence. -/
def columns (escaped : Bool) : List Char → Nat
  | [] => 0
  | c :: rest =>
    if c = '\x1b' then columns true rest
    else if escaped then columns (c != 'm') rest
    else columns false rest + 1

/-- The columns that a text takes. -/
def visibleLength (text : String) : Nat := columns false text.toList

/-- A run of one character. -/
def run (count : Nat) (c : Char) : String := String.ofList (List.replicate count c)

/-- A text filled up with blanks at its end. -/
def padRight (width : Nat) (text : String) : String :=
  text ++ run (width - visibleLength text) ' '

/-- A text filled up with blanks at its beginning. -/
def padLeft (width : Nat) (text : String) : String :=
  run (width - text.length) ' ' ++ text

/-- Texts from a position on, with a wider gap after each eighth. -/
def spaced (position : Nat) : List String → String
  | [] => ""
  | [last] => last
  | text :: rest => text ++ (if position % 8 = 7 then "  " else " ") ++ spaced (position + 1) rest

/-- Bytes as digit pairs, in groups of eight. -/
def hexBytes (bytes : Bytes) : String :=
  spaced 0 (bytes.map fun b => String.ofList (Hex.byteDigits b))

end WireParity.Terminal
