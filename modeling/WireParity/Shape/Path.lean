/-!
# Paths to the parts of a value

A path names a part of a value by the way to it from the root. Names are set off by dots and array
positions stand in brackets; the root itself is the empty path.
-/

namespace WireParity.Path

/-- The path of the root. -/
def root : String := ""

/-- The path of a field or variant of what lies at `parent`. -/
def child (parent segment : String) : String :=
  if parent = "" then segment else parent ++ "." ++ segment

/-- The path of an element of the array at `parent`. -/
def element (parent : String) (index : Nat) : String :=
  parent ++ "[" ++ toString index ++ "]"

/-- The path that stands for all elements of the array at `parent`. -/
def anyElement (parent : String) : String := parent ++ "[*]"

/-- How a path is shown in a message. -/
def shown (path : String) : String := if path = "" then "<root>" else path

end WireParity.Path
