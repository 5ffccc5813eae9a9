import WireParity.Bytes.Hex
import WireParity.Files.Path
import WireParity.Text.Utf8

/-!
# File trees

A tree holds files and directories under a working directory, by the names that lead to them. What
lies above the working directory exists, but nothing in it is known. Paths are followed name by
name: a name that leads nowhere is not found, and one that has to be a directory and is not is
refused.
-/

namespace WireParity

/-- Why a file operation fails. -/
inductive FileError
  | notFound
  | denied
  | present
  | notDirectory
  | isDirectory
  | nameTooLong
  | nulInName
  | notUtf8
deriving Repr, DecidableEq

namespace FileError

/-- What is wrong. -/
def reason : FileError → String
  | notFound => "No such file or directory"
  | denied => "Permission denied"
  | present => "File exists"
  | notDirectory => "Not a directory"
  | isDirectory => "Is a directory"
  | nameTooLong => "File name too long"
  | nulInName => "file name contained an unexpected NUL byte"
  | notUtf8 => "stream did not contain valid UTF-8"

/-- The number that the operating system has for a failure, if the failure is its own. -/
def number? : FileError → Option Nat
  | notFound => some 2
  | denied => some 13
  | present => some 17
  | notDirectory => some 20
  | isDirectory => some 21
  | nameTooLong => some 36
  | nulInName | notUtf8 => none

/-- The wording of a failure. -/
def message (e : FileError) : String :=
  match e.number? with
  | some n => s!"{e.reason} (os error {n})"
  | none => e.reason

end FileError

/-- Files with their contents, and directories, each by the names that lead to it. Every directory
on the way to a file exists too. There are no links, so that two names never lead to one file, and no
limit on the length of a whole path, only on that of a name. -/
structure FileTree where
  files : List (List String × Bytes)
  directories : List (List String)
deriving Repr

/-- A directory of a tree, or somewhere above it. -/
inductive Place
  | inside (names : List String)
  | outside
deriving Repr, DecidableEq

/-- What a path leads to. -/
inductive FileNode
  | file (names : List String) (content : Bytes)
  | directory (place : Place)
deriving Repr, DecidableEq

namespace FileTree

/-- A tree without files. -/
def empty : FileTree := ⟨[], []⟩

/-- The content of the file at some names. -/
def contentAt? (tree : FileTree) (names : List String) : Option Bytes :=
  (tree.files.find? fun entry => entry.1 == names).map Prod.snd

/-- There is a directory at some names. -/
def isDirectoryAt (tree : FileTree) (names : List String) : Bool :=
  names.isEmpty || tree.directories.contains names ||
    tree.files.any fun entry => names.isPrefixOf entry.1 && entry.1 != names

/-- What one name leads to from a place. -/
def enter (tree : FileTree) (place : Place) (name : String) : Except FileError FileNode :=
  if 255 < name.utf8ByteSize then .error .nameTooLong
  else if Files.isIdle name then .ok (.directory place)
  else match place with
    | .outside => if name = ".." then .ok (.directory .outside) else .error .notFound
    | .inside names =>
      if name = ".." then
        if names.isEmpty then .ok (.directory .outside)
        else .ok (.directory (.inside names.dropLast))
      else
        let target := names ++ [name]
        match tree.contentAt? target with
        | some content => .ok (.file target content)
        | none =>
          if tree.isDirectoryAt target then .ok (.directory (.inside target))
          else .error .notFound

/-- What names lead to, one after another. -/
def follow (tree : FileTree) : FileNode → List String → Except FileError FileNode
  | node, [] => .ok node
  | .file _ _, _ :: _ => .error .notDirectory
  | .directory place, name :: rest =>
    match tree.enter place name with
    | .error e => .error e
    | .ok node => follow tree node rest

/-- Where following a path starts. -/
def origin (path : String) : FileNode :=
  .directory (if Files.isAbsolute path then .outside else .inside [])

/-- What a path leads to. -/
def locate (tree : FileTree) (path : String) : Except FileError FileNode :=
  if path = "" then .error .notFound
  else if path.toList.contains '\x00' then .error .nulInName
  else tree.follow (origin path) (Text.splitOn '/' path)

/-- The path leads to a directory. -/
def isDirectory (tree : FileTree) (path : String) : Bool :=
  match tree.locate path with
  | .ok (.directory _) => true
  | _ => false

/-- The names of the file that a path leads to: the same for all paths to it. -/
def canonical? (tree : FileTree) (path : String) : Option (List String) :=
  match tree.locate path with
  | .ok (.file names _) => some names
  | .ok (.directory (.inside names)) => some names
  | _ => none

/-- The content of the file that a path leads to. -/
def read (tree : FileTree) (path : String) : Except FileError Bytes :=
  match tree.locate path with
  | .ok (.file _ content) => .ok content
  | .ok (.directory _) => .error .isDirectory
  | .error e => .error e

/-- The text of the file that a path leads to. -/
def readText (tree : FileTree) (path : String) : Except FileError String :=
  match tree.read path with
  | .ok content =>
    match Utf8.text? content with
    | some text => .ok text
    | none => .error .notUtf8
  | .error e => .error e

/-- The path leads to something. -/
def leadsSomewhere (tree : FileTree) (path : String) : Bool :=
  match tree.locate path with
  | .ok _ => true
  | .error _ => false

/-- The files in the directory that a path leads to, and in those below it. -/
def filesBelow (tree : FileTree) (path : String) : List (List String × Bytes) :=
  match tree.locate path with
  | .ok (.directory (.inside names)) => tree.files.filter fun entry => names.isPrefixOf entry.1
  | _ => []

/-- The names that lead to the directory of a path, in which a program is to work. None of them lead
to a place outside of the tree. -/
def workingDirectory (tree : FileTree) (path : String) : Except FileError (List String) :=
  match tree.locate path with
  | .ok (.directory (.inside names)) => .ok names
  | .ok (.directory .outside) => .ok []
  | .ok (.file _ _) => .error .notDirectory
  | .error e => .error e

/-- The names in a path, the last one apart. -/
def lastName (path : String) : List String × String :=
  match (Text.splitOn '/' path).reverse.dropWhile Files.isIdle with
  | name :: rest => (rest.reverse, name)
  | [] => ([], "")

/-- The directory that will hold what a path names, and the name it will have there. -/
def place (tree : FileTree) (path : String) : Except FileError (List String × String) :=
  let (names, last) := lastName path
  match tree.follow (origin path) names with
  | .ok (.directory (.inside at_)) => .ok (at_, last)
  | .ok (.directory .outside) => .error .notFound
  | .ok (.file _ _) => .error .notDirectory
  | .error e => .error e

/-- Puts content at some names, in place of what was there. -/
def put (tree : FileTree) (names : List String) (content : Bytes) : FileTree :=
  { tree with files := (names, content) :: tree.files.filter fun entry => entry.1 != names }

/-- Takes the file at some names away. -/
def remove (tree : FileTree) (names : List String) : FileTree :=
  { tree with files := tree.files.filter fun entry => entry.1 != names }

/-- Writes a file. One that does not exist yet cannot be named by a path that says of its last name
that it is a directory. -/
def write (tree : FileTree) (path : String) (content : Bytes) : Except FileError FileTree :=
  if path = "" then .error .notFound
  else if Text.endsWith "/" path then .error .isDirectory
  else match tree.locate path with
    | .ok (.file names _) => .ok (tree.put names content)
    | .ok (.directory _) => .error .isDirectory
    | .error .notFound =>
      if Text.endsWith "/." path then .error .notFound
      else (tree.place path).map fun (names, last) => tree.put (names ++ [last]) content
    | .error e => .error e

/-- Makes one directory. -/
def makeDirectory (tree : FileTree) (path : String) : Except FileError FileTree :=
  match tree.locate path with
  | .ok _ => .error .present
  | .error .notFound => (tree.place path).map fun (names, last) =>
    { tree with directories := (names ++ [last]) :: tree.directories }
  | .error e => .error e

/-- Makes a directory and those above it that are missing, of which there are at most `depth`. -/
def makeDirectoriesWithin : Nat → FileTree → String → Except FileError FileTree
  | 0, tree, _ => .ok tree
  | depth + 1, tree, path =>
    if path = "" then .ok tree
    else match tree.makeDirectory path with
      | .ok made => .ok made
      | .error .notFound =>
        match Files.parent? path with
        | none => .error .notFound
        | some parent =>
          match makeDirectoriesWithin depth tree parent with
          | .error e => .error e
          | .ok made =>
            match made.makeDirectory path with
            | .ok done => .ok done
            | .error e => if made.isDirectory path then .ok made else .error e
      | .error e => if tree.isDirectory path then .ok tree else .error e

/-- Makes a directory and those above it that are missing. -/
def makeDirectories (tree : FileTree) (path : String) : Except FileError FileTree :=
  makeDirectoriesWithin (path.length + 1) tree path

/-- A tree of files, each given by its path; the directories on the way are made. -/
def ofFiles (files : List (String × Bytes)) : FileTree :=
  files.foldl (fun tree file =>
    let names := (Text.splitOn '/' file.1).filter fun name => !Files.isIdle name
    tree.put names file.2) empty

end FileTree

end WireParity
