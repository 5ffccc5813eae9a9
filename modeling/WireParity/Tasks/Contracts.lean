import WireParity.Files.Tree

/-!
# The table of contracts

A source file lists the contracts of a program in a table in its head. Each contract has to be
called from some other source file, or what it guards is not checked.
-/

namespace WireParity.Tasks

/-- The name of the file with the table. -/
def contractsName : String := "contracts.rs"

/-- The ending of the names of source files. -/
def sourceEnding : List Char := ".rs".toList

/-- The beginning of a line of the table. -/
def tableStart : String := "//! | \x60"

/-- A line without the carriage return at its end. -/
def withoutReturn (line : String) : String :=
  match line.toList.reverse with
  | '\r' :: rest => String.ofList rest.reverse
  | _ => line

/-- The lines of a text. -/
def linesOf (text : String) : List String := (Text.splitOn '\n' text).map withoutReturn

/-- The name that a line of the table begins with. -/
def nameIn? (line : String) : Option String :=
  if Text.beginsWith tableStart line then
    some (String.ofList ((line.toList.drop tableStart.length).takeWhile (· != '\x60')))
  else none

/-- The names in the table. -/
def contractNames (text : String) : List String := (linesOf text).filterMap nameIn?

/-- A text occurs among characters. -/
def occurs (part : List Char) : List Char → Bool
  | [] => part.isEmpty
  | c :: rest => part.isPrefixOf (c :: rest) || occurs part rest

/-- A text calls a contract. -/
def calls (text name : String) : Bool := occurs (name ++ "(").toList text.toList

/-- The contracts that none of the texts calls. -/
def uncalled (names texts : List String) : List String :=
  names.filter fun name => !texts.any fun text => calls text name

/-- The name is that of a source file. -/
def isSource (name : String) : Bool :=
  sourceEnding.length < name.length && sourceEnding.isSuffixOf name.toList

/-- The source files below a directory, without those that have a table. -/
def callers (tree : FileTree) (path : String) : List (List String × Bytes) :=
  (tree.filesBelow path).filter fun entry =>
    match entry.1.getLast? with
    | some name => isSource name && name != contractsName
    | none => false

end WireParity.Tasks
