import WireParity.Script.Command
import WireParity.Text.Parts

/-!
# Reading scripts

A script is read by descent over its characters. Every reader takes what it reads from the front and
hands on the rest; the number that counts down is the length of the script, which bounds how often
readers can call one another without taking anything.
-/

namespace WireParity.Script

/-- The character sets words apart, outside of quotes. -/
def isDelimiter (c : Char) : Bool := " \t\n;&|<>()".contains c

/-- The character may begin a name. -/
def startsName (c : Char) : Bool := c.isAlpha || c == '_'

/-- The character may be in a name. -/
def inName (c : Char) : Bool := c.isAlphanum || c == '_'

/-- The input after blanks and comments, and after line ends too if those are skipped. -/
def skip (lines comment : Bool) : List Char → List Char
  | [] => []
  | '\\' :: '\n' :: rest => skip lines comment rest
  | c :: rest =>
    if c = '\n' then if lines then skip lines false rest else c :: rest
    else if comment ∨ c = '#' then skip lines true rest
    else if c = ' ' ∨ c = '\t' then skip lines false rest
    else c :: rest

/-- The input after a keyword, if it begins with that. -/
def afterKeyword? (keyword : String) (input : List Char) : Option (List Char) :=
  let rest := input.drop keyword.length
  if keyword.toList.isPrefixOf input ∧ (rest.head?.elim true isDelimiter) then some rest else none

/-- The input after some characters, if it begins with them. -/
def after? (start : String) (input : List Char) : Option (List Char) :=
  if start.toList.isPrefixOf input then some (input.drop start.length) else none

/-- The name of a parameter, after the dollar sign. -/
def parameter? (input : List Char) : Option (String × List Char) :=
  match input with
  | '\x7b' :: rest =>
    match rest.span (· != '\x7d') with
    | (name, _ :: rest) => some (String.ofList name, rest)
    | (_, []) => none
  | c :: rest =>
    if startsName c then
      some (String.ofList (c :: rest.takeWhile inName), rest.dropWhile inName)
    else if "$?#".contains c ∨ c.isDigit then some (c.toString, rest)
    else none
  | [] => none

/-- An assignment's name, before the equals sign. -/
def assigned? (input : List Char) : Option (String × List Char) :=
  match input.span inName with
  | (c :: name, '=' :: rest) =>
    if startsName c then some (String.ofList (c :: name), rest) else none
  | _ => none

/-- The stream and direction of a redirection, with the input from its target on. -/
def redirection? (input : List Char) : Option (Nat × Direction × List Char) :=
  let (stream, rest) := match input with
    | c :: '<' :: rest => if c.isDigit then (some (c.toNat - 48), '<' :: rest) else (none, input)
    | c :: '>' :: rest => if c.isDigit then (some (c.toNat - 48), '>' :: rest) else (none, input)
    | _ => (none, input)
  match rest with
  | '>' :: '&' :: rest => some (stream.getD 1, .join, rest)
  | '>' :: '>' :: rest => some (stream.getD 1, .append, rest)
  | '>' :: rest => some (stream.getD 1, .write, rest)
  | '<' :: rest => some (stream.getD 0, .read, rest)
  | _ => none

/-- The line that the rest of a script of so many lines begins on. -/
def lineOf (lines : Nat) (rest : List Char) : Nat := lines - rest.count '\n'

mutual

/-- An expansion, after the dollar sign. -/
def readExpansion (lines : Nat) : Nat → Bool → List Char → Option (Part × List Char)
  | 0, _, _ => none
  | fuel + 1, quoted, input =>
    match input with
    | '(' :: rest =>
      match readList lines fuel rest with
      | some (commands, ')' :: rest) => some (.output quoted commands, rest)
      | _ => none
    | _ =>
      match parameter? input with
      | some (name, rest) => some (.parameter quoted name, rest)
      | none => some (.text "$", input)

/-- The parts up to a closing quote. -/
def readQuoted (lines : Nat) : Nat → List Char → Option (List Part × List Char)
  | 0, _ => none
  | fuel + 1, input =>
    match input with
    | [] => none
    | '"' :: rest => some ([], rest)
    | '$' :: rest => do
      let (part, rest) ← readExpansion lines fuel true rest
      let (parts, rest) ← readQuoted lines fuel rest
      return (part :: parts, rest)
    | '\\' :: c :: rest => do
      let text := if c = '\n' then "" else if "$\"\\".contains c then c.toString else "\\" ++ c.toString
      let (parts, rest) ← readQuoted lines fuel rest
      return (.text text :: parts, rest)
    | c :: rest => do
      let (parts, rest) ← readQuoted lines fuel rest
      return (.text c.toString :: parts, rest)

/-- The parts of a word, up to what sets it apart from the next. -/
def readWord (lines : Nat) : Nat → List Char → Option (List Part × List Char)
  | 0, _ => none
  | fuel + 1, input =>
    match input with
    | [] => some ([], [])
    | '\'' :: rest =>
      match rest.span (· != '\'') with
      | (text, _ :: rest) => do
        let (parts, rest) ← readWord lines fuel rest
        return (.text (String.ofList text) :: parts, rest)
      | (_, []) => none
    | '"' :: rest => do
      let (quoted, rest) ← readQuoted lines fuel rest
      let (parts, rest) ← readWord lines fuel rest
      return (.text "" :: (quoted ++ parts), rest)
    | '$' :: rest => do
      let (part, rest) ← readExpansion lines fuel false rest
      let (parts, rest) ← readWord lines fuel rest
      return (part :: parts, rest)
    | '\\' :: c :: rest => do
      let (parts, rest) ← readWord lines fuel rest
      return (.text (if c = '\n' then "" else c.toString) :: parts, rest)
    | c :: rest =>
      if isDelimiter c then some ([], input)
      else do
        let part := if c = '*' then Part.anyText else if c = '?' then .anyChar else .text c.toString
        let (parts, rest) ← readWord lines fuel rest
        return (part :: parts, rest)

/-- The patterns of an arm, up to the closing parenthesis. -/
def readPatterns (lines : Nat) : Nat → List Char → Option (List (List Part) × List Char)
  | 0, _ => none
  | fuel + 1, input => do
    let (pattern, rest) ← readWord lines fuel (skip false false input)
    match skip false false rest with
    | '|' :: rest => do
      let (patterns, rest) ← readPatterns lines fuel rest
      return (pattern :: patterns, rest)
    | ')' :: rest => some ([pattern], rest)
    | _ => none

/-- The arms of a choice, up to its end. -/
def readArms (lines : Nat) : Nat → List Char → Option (List (Arm (List Part) Command) × List Char)
  | 0, _ => none
  | fuel + 1, input =>
    let input := skip true false input
    match afterKeyword? "esac" input with
    | some rest => some ([], rest)
    | none => do
      let (patterns, rest) ← readPatterns lines fuel ((after? "(" input).getD input)
      let (body, rest) ← readList lines fuel rest
      let rest := skip true false rest
      let (arms, rest) ← readArms lines fuel ((after? ";;" rest).getD rest)
      return (⟨patterns, body⟩ :: arms, rest)

/-- The words and redirections of a simple command, after its assignments. -/
def readWords (lines : Nat) : Nat → List Char →
    Option (List (List Part) × List (Redirection (List Part)) × List Char)
  | 0, _ => none
  | fuel + 1, input =>
    let input := skip false false input
    match redirection? input with
    | some (stream, direction, rest) => do
      let (target, rest) ← readWord lines fuel (skip false false rest)
      if target.isEmpty then none
      else
        let (words, redirections, rest) ← readWords lines fuel rest
        return (words, ⟨stream, direction, target⟩ :: redirections, rest)
    | none =>
      if input.head?.elim true isDelimiter then some ([], [], input)
      else do
        let (word, rest) ← readWord lines fuel input
        let (words, redirections, rest) ← readWords lines fuel rest
        return (word :: words, redirections, rest)

/-- A simple command. -/
def readSimple (lines : Nat) : Nat → List Char → Option (Command × List Char)
  | 0, _ => none
  | fuel + 1, input =>
    let input := skip false false input
    match assigned? input with
    | some (name, rest) => do
      let (value, rest) ← readWord lines fuel rest
      match ← readSimple lines fuel rest with
      | (.simple _ assignments words redirections, rest) =>
        some (.simple (lineOf lines input) (⟨name, value⟩ :: assignments) words redirections, rest)
      | _ => none
    | none => do
      let (words, redirections, rest) ← readWords lines fuel input
      return (.simple (lineOf lines input) [] words redirections, rest)

/-- A choice or a simple command that is not empty. -/
def readCommand (lines : Nat) : Nat → List Char → Option (Command × List Char)
  | 0, _ => none
  | fuel + 1, input =>
    let input := skip true false input
    match afterKeyword? "case" input with
    | some rest => do
      let (subject, rest) ← readWord lines fuel (skip false false rest)
      let rest ← afterKeyword? "in" (skip true false rest)
      let (arms, rest) ← readArms lines fuel rest
      return (.choice subject arms, rest)
    | none =>
      match readSimple lines fuel input with
      | some (.simple _ [] [] [], _) => none
      | other => other

/-- Commands whose streams are joined. -/
def readPipe (lines : Nat) : Nat → List Char → Option (Command × List Char)
  | 0, _ => none
  | fuel + 1, input => do
    let (left, rest) ← readCommand lines fuel input
    match skip false false rest with
    | '|' :: '|' :: rest => some (left, '|' :: '|' :: rest)
    | '|' :: rest => do
      let (right, rest) ← readPipe lines fuel rest
      return (.pipe left right, rest)
    | rest => some (left, rest)

/-- Commands each of which depends on how the ones before it ended, after the first of them. -/
def readTail (lines : Nat) : Nat → Command → List Char → Option (Command × List Char)
  | 0, _, _ => none
  | fuel + 1, first, input =>
    match skip false false input with
    | '&' :: '&' :: rest => do
      let (second, rest) ← readPipe lines fuel rest
      readTail lines fuel (.ifSuccess first second) rest
    | '|' :: '|' :: rest => do
      let (second, rest) ← readPipe lines fuel rest
      readTail lines fuel (.ifFailure first second) rest
    | rest => some (first, rest)

/-- Commands up to the end of the script, a closing parenthesis, or the end of an arm. -/
def readList (lines : Nat) : Nat → List Char → Option (List Command × List Char)
  | 0, _ => none
  | fuel + 1, input =>
    let input := skip true false input
    if input.isEmpty ∨ input.head? = some ')' ∨ (after? ";;" input).isSome ∨
        (afterKeyword? "esac" input).isSome then some ([], input)
    else do
      let (first, rest) ← readPipe lines fuel input
      let (command, rest) ← readTail lines fuel first rest
      match skip false false rest with
      | ';' :: ';' :: rest => some ([command], ';' :: ';' :: rest)
      | ';' :: rest | '\n' :: rest => do
        let (commands, rest) ← readList lines fuel rest
        return (command :: commands, rest)
      | rest => some ([command], rest)

end

/-- The commands of a script. -/
def parse? (text : String) : Option (List Command) :=
  let input := text.toList
  match readList (input.count '\n' + 1) (20 * (input.length + 1)) input with
  | some (commands, []) => some commands
  | _ => none

end WireParity.Script
