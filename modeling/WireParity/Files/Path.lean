import WireParity.Text.Parts

/-!
# File paths as text

Paths are kept as they were written. Joining puts a separator between two paths unless one is
already there, and an absolute path replaces what it is joined to. The parent of a path is found
by its components, where repeated separators and dots do not count.
-/

namespace WireParity.Files

/-- The path starts at the root of the file system. -/
def isAbsolute (path : String) : Bool := Text.beginsWith "/" path

/-- A path continued by another. -/
def join (base path : String) : String :=
  if isAbsolute path ∨ base = "" then path
  else if Text.endsWith "/" base then base ++ path
  else base ++ "/" ++ path

/-- The part of a path before its components: the root, or the dot of a path that starts with it. -/
def anchor (path : String) : String :=
  if isAbsolute path then "/"
  else if path = "." ∨ Text.beginsWith "./" path then "."
  else ""

/-- The components of a path after its anchor, last one first. -/
def bodyReversed (path : String) : List String :=
  (Text.splitOn '/' (String.ofList (path.toList.drop (anchor path).length))).reverse

/-- A component that does not count. -/
def isIdle (component : String) : Bool := component == "" || component == "."

/-- The path without its last component, if it has one. -/
def parent? (path : String) : Option String :=
  match (bodyReversed path).dropWhile isIdle with
  | _ :: rest => some (anchor path ++ "/".intercalate (rest.dropWhile isIdle).reverse)
  | [] => if anchor path = "." then some "" else none

end WireParity.Files
