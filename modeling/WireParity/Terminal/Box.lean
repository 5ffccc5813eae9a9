import WireParity.Terminal.Text
import WireParity.Terminal.Theme

/-!
# Boxes

A box is a top edge with a label, rows, and a bottom edge. Content that is too long sticks out.
-/

namespace WireParity.Terminal

/-- The columns between the sides of a box. -/
def boxWidth : Nat := 72

/-- A piece of an edge. -/
def edge (theme : Option Theme) (piece : String) : String := painted theme "" .gray piece

/-- The top edge. -/
def boxTop (theme : Option Theme) (label : String) : String :=
  let start := "─ " ++ painted theme bold .cyan label ++ " "
  edge theme "┌" ++ start ++ edge theme (run (boxWidth - visibleLength start) '─' ++ "┐")

/-- A row. -/
def boxRow (theme : Option Theme) (content : String) : String :=
  edge theme "│" ++ " " ++ content ++ run (boxWidth - (visibleLength content + 1)) ' ' ++
    edge theme "│"

/-- The bottom edge. -/
def boxBottom (theme : Option Theme) : String := edge theme ("└" ++ run boxWidth '─' ++ "┘")

/-- A box. -/
def box (theme : Option Theme) (label : String) (rows : List String) : List String :=
  boxTop theme label :: (rows.map (boxRow theme) ++ [boxBottom theme])

end WireParity.Terminal
