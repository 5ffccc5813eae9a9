import WireParity.Script.Command

/-!
# What becomes of words

Once the parameters and commands in a word have been replaced by their texts, the word is pieces.
For most words these are put together into fields, and loose text is split at blanks on the way; a
pattern is matched against a text as a whole.
-/

namespace WireParity.Script

/-- What a part of a word has come to: text that stays together, text that is split at blanks, or a
wildcard. -/
inductive Piece
  | fixed (s : String)
  | loose (s : String)
  | anyText
  | anyChar
deriving Repr, DecidableEq

namespace Piece

/-- The text of a piece, where wildcards stand for themselves. -/
def plain : Piece → String
  | fixed s | loose s => s
  | anyText => "*"
  | anyChar => "?"

/-- The text of pieces. -/
def text (pieces : List Piece) : String := String.join (pieces.map plain)

/-- Splits loose text: the fields that it completes, and the one that it leaves open. -/
def split (current : Option String) : List Char → List String × Option String
  | [] => ([], current)
  | c :: rest =>
    if c = ' ' ∨ c = '\t' ∨ c = '\n' then
      let (fields, last) := split none rest
      (current.toList ++ fields, last)
    else split (some (current.getD "" ++ c.toString)) rest

/-- The fields of pieces, after what there is already of the first. -/
def fieldsFrom (current : Option String) : List Piece → List String
  | [] => current.toList
  | loose s :: rest =>
    let (fields, last) := split current s.toList
    fields ++ fieldsFrom last rest
  | piece :: rest => fieldsFrom (some (current.getD "" ++ piece.plain)) rest

/-- The fields of pieces. -/
def fields (pieces : List Piece) : List String := fieldsFrom none pieces

/-- A condition holds of an end of a text. -/
def anyEnd (holds : List Char → Bool) : List Char → Bool
  | [] => holds []
  | c :: rest => holds (c :: rest) || anyEnd holds rest

/-- The characters begin with some text and what follows meets a condition. -/
def follows (holds : List Char → Bool) (start input : List Char) : Bool :=
  start.isPrefixOf input && holds (input.drop start.length)

/-- A text matches pieces as a pattern. -/
def covers : List Piece → List Char → Bool
  | [], input => input.isEmpty
  | anyText :: rest, input => anyEnd (covers rest) input
  | anyChar :: rest, input => !input.isEmpty && covers rest (input.drop 1)
  | fixed s :: rest, input => follows (covers rest) s.toList input
  | loose s :: rest, input => follows (covers rest) s.toList input

end Piece

end WireParity.Script
