/-!
# Scripts

The commands of a small shell language. A word is made of parts, some of which only running the
script brings out; a simple command is words, with assignments before them and redirections of its
streams; a choice picks the commands whose pattern a word matches.
-/

namespace WireParity.Script

/-- What a redirection does with a stream: read a file, write one anew, write on at its end, or
join another stream. -/
inductive Direction
  | read
  | write
  | append
  | join
deriving Repr, DecidableEq

/-- A redirection of the stream with a number to a target. -/
structure Redirection (α : Type) where
  stream : Nat
  direction : Direction
  target : α
deriving Repr

/-- The assignment of a value to a name. -/
structure Assignment (α : Type) where
  name : String
  value : α
deriving Repr

/-- An arm of a choice: patterns, and what is done where one of them matches. -/
structure Arm (α β : Type) where
  patterns : List α
  body : List β
deriving Repr

mutual

/-- A part of a word: text that stands for itself, wildcards for any text or one character, the
value of a parameter, or what commands write. Parts that are not quoted are split at blanks. -/
inductive Part
  | text (s : String)
  | anyText
  | anyChar
  | parameter (quoted : Bool) (name : String)
  | output (quoted : Bool) (commands : List Command)

/-- A command. A simple command knows the line that it stands on. -/
inductive Command
  | simple (line : Nat) (assignments : List (Assignment (List Part))) (words : List (List Part))
      (redirections : List (Redirection (List Part)))
  | choice (subject : List Part) (arms : List (Arm (List Part) Command))
  | pipe (left right : Command)
  | ifSuccess (first second : Command)
  | ifFailure (first second : Command)

end

end WireParity.Script
