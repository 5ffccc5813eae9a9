import WireParity.Number.Numeral
import WireParity.Text.Parts

/-!
# Colours

There is a palette for dark backgrounds and one for light ones. The theme is asked for by name, or
else guessed from the number of the background colour that the terminal announces.
-/

namespace WireParity.Terminal

/-- The brightness of the background. -/
inductive Theme
  | dark
  | light
deriving Repr, DecidableEq

/-- The lower case of a character, as far as it is an ASCII letter. Beside the ASCII capitals, the
Kelvin sign has one. -/
def lowerLetter (c : Char) : Char := if c = '\u212a' then 'k' else c.toLower

namespace Theme

/-- The theme with a name, in any case of letters. -/
def ofName? (name : String) : Option Theme :=
  let word := String.ofList (name.toList.map lowerLetter)
  if word ∈ ["light", "l"] then some light
  else if word ∈ ["dark", "d"] then some dark
  else none

/-- The theme for a background colour: from the seventh on they are light, but for the eighth. -/
def ofBackground (colour : Nat) : Theme := if 7 ≤ colour ∧ colour ≠ 8 then light else dark

/-- The theme that colour numbers announce, of which the background is the last. -/
def announced? (numbers : String) : Option Theme :=
  ((Text.splitOn ';' numbers).getLast?.bind (Numeral.natBelow? 256)).map ofBackground

/-- The theme to use, given the name that was asked for and the numbers that were announced. -/
def detect (name numbers : Option String) : Theme :=
  ((name.bind ofName?).or (numbers.bind announced?)).getD dark

/-- The name of a theme. -/
def name : Theme → String
  | dark => "Dark"
  | light => "Light"

end Theme

/-- The colours of a palette. -/
inductive Colour
  | red
  | green
  | yellow
  | cyan
  | gray
  | magenta
deriving Repr, DecidableEq

namespace Colour

/-- Every colour. -/
def all : List Colour := [red, green, yellow, cyan, gray, magenta]

/-- The name of a colour. -/
def name : Colour → String
  | red => "RED"
  | green => "GREEN"
  | yellow => "YELLOW"
  | cyan => "CYAN"
  | gray => "GRAY"
  | magenta => "MAGENTA"

/-- The red, green and blue parts of a colour in the palette of a theme. -/
def parts : Theme → Colour → Nat × Nat × Nat
  | .dark, red => (224, 108, 117)
  | .dark, green => (152, 195, 121)
  | .dark, yellow => (229, 192, 123)
  | .dark, cyan => (86, 182, 194)
  | .dark, gray => (92, 99, 112)
  | .dark, magenta => (198, 120, 221)
  | .light, red => (228, 86, 73)
  | .light, green => (80, 161, 79)
  | .light, yellow => (193, 132, 1)
  | .light, cyan => (1, 132, 188)
  | .light, gray => (160, 161, 167)
  | .light, magenta => (166, 38, 164)

/-- The escape sequence that switches to a colour. -/
def escapeSequence (theme : Theme) (colour : Colour) : String :=
  let (r, g, b) := colour.parts theme
  s!"\x1b[38;2;{r};{g};{b}m"

end Colour

/-- The escape sequence for bold letters. -/
def bold : String := "\x1b[1m"

/-- The escape sequence for dim letters. -/
def dim : String := "\x1b[2m"

/-- The escape sequence that takes everything back. -/
def reset : String := "\x1b[0m"

/-- A text in a colour, with other escape sequences before it. Without a theme it stays plain. -/
def painted (theme : Option Theme) (modifiers : String) (colour : Colour) (text : String) : String :=
  match theme with
  | some theme => modifiers ++ colour.escapeSequence theme ++ text ++ reset
  | none => text

end WireParity.Terminal
