/-!
# White space

The characters that text is trimmed of and that set words apart are those with the Unicode
property `White_Space`.
-/

namespace WireParity.Text

/-- The first and last code points of the blocks of blank characters. -/
def blankRanges : List (Nat × Nat) :=
  [(0x9, 0xd), (0x20, 0x20), (0x85, 0x85), (0xa0, 0xa0), (0x1680, 0x1680), (0x2000, 0x200a),
   (0x2028, 0x2029), (0x202f, 0x202f), (0x205f, 0x205f), (0x3000, 0x3000)]

/-- The character is white space. -/
def isBlank (c : Char) : Bool :=
  blankRanges.any fun range => decide (range.1 ≤ c.toNat ∧ c.toNat ≤ range.2)

/-- Text without the white space at its end. -/
def trimEnd (text : String) : String :=
  String.ofList (text.toList.reverse.dropWhile isBlank).reverse

/-- Text without the white space around it. -/
def trim (text : String) : String :=
  trimEnd (String.ofList (text.toList.dropWhile isBlank))

/-- The words of a list of characters, after the letters of the current one, last one first. -/
def wordsFrom (current : List Char) : List Char → List String
  | [] => if current.isEmpty then [] else [String.ofList current.reverse]
  | c :: rest =>
    if isBlank c then
      if current.isEmpty then wordsFrom [] rest
      else String.ofList current.reverse :: wordsFrom [] rest
    else wordsFrom (c :: current) rest

/-- The words of a text. -/
def words (text : String) : List String := wordsFrom [] text.toList

end WireParity.Text
