/-!
# Parts of text

Cutting text at separators, comparing its beginning and end, and the lower case of ASCII letters.
-/

namespace WireParity.Text

/-- The pieces between separators; there is one more of them than of separators. -/
def pieces (separator : Char) : List Char → List (List Char)
  | [] => [[]]
  | c :: rest =>
    if c = separator then [] :: pieces separator rest
    else match pieces separator rest with
      | [] => [[c]]
      | piece :: others => (c :: piece) :: others

/-- The pieces of a text between separators. -/
def splitOn (separator : Char) (text : String) : List String :=
  (pieces separator text.toList).map String.ofList

/-- A text cut at the first separator, which belongs to neither part. -/
def splitOnce? (separator : Char) (text : String) : Option (String × String) :=
  match text.toList.span (· != separator) with
  | (_, []) => none
  | (before, _ :: after) => some (String.ofList before, String.ofList after)

/-- The text begins with another. -/
def beginsWith (start text : String) : Bool := start.toList.isPrefixOf text.toList

/-- The text ends with another. -/
def endsWith (ending text : String) : Bool := ending.toList.isSuffixOf text.toList

/-- A text with its ASCII letters in lower case. -/
def lowercase (text : String) : String := String.ofList (text.toList.map Char.toLower)

end WireParity.Text
