import WireParity.Table
import WireParity.Text.Blank
import WireParity.Text.Parts

/-!
# Selected variants

Nothing in the bytes of a union says which member they hold, and no enum has one size. What is
needed is told from outside: selections name a variant for paths into the value.
-/

namespace WireParity

/-- The variant selected at each path. -/
structure Selections where
  entries : Table String
deriving Repr, DecidableEq

namespace Selections

/-- No selection. -/
def empty : Selections := ⟨[]⟩

/-- The variant selected at a path. -/
def get? (s : Selections) (path : String) : Option String := Table.find? path s.entries

/-- Selects a variant at a path, in place of an earlier choice. -/
def insert (s : Selections) (path variant : String) : Selections :=
  ⟨Table.insert path variant s.entries⟩

/-- A single selection, for the root. -/
def root (variant : String) : Selections := empty.insert "" variant

/-- The selections of a list; of two at one path the later counts. -/
def ofList (choices : List (String × String)) : Selections := ⟨Table.ofList choices⟩

/-- The selections, in order of their paths. -/
def toList (s : Selections) : List (String × String) := s.entries

/-- Nothing is selected. -/
def isEmpty (s : Selections) : Bool := s.entries.isEmpty

/-- Reads `PATH=NAME`, or a bare `NAME` for the root. Blanks around both are dropped. -/
def parseChoice (spec : String) : String × String :=
  match Text.splitOnce? '=' spec with
  | some (path, name) => (Text.trim path, Text.trim name)
  | none => ("", Text.trim spec)

end Selections

end WireParity
