import WireParity.CommandLine.Journal
import WireParity.Number.Numeral
import WireParity.Text.Alphanumeric
import WireParity.Text.Blank
import WireParity.Text.Parts

/-!
# Filters for the journal

A filter is a list of directives, written with commas between them. A directive says up to which
level events get through, and which events it is about: those of an origin, those with a field, or
those inside of a run. It is written as an origin, a bracket about runs, an equals sign and a level,
of which most may be left out.

A directive that asks for neither a run nor the value of a field stands alone. Of those that concern
an event the most specific one decides. Directives that ask for a run or a field hold for what
happens inside of the runs that they concern, and there each of them lets more through.
-/

namespace WireParity.CommandLine

/-- The rank that a word for a level stands for: a numeral, or a name in any case. Zero lets nothing
through. -/
def Level.rankNamed? (word : String) : Option Nat :=
  if Text.lowercase word = "off" then some 0
  else match Numeral.natBelow? 6 word with
    | some n => some n
    | none => (Level.all.find? fun l => Text.lowercase l.name == Text.lowercase word).map Level.rank

/-- What the value of a field has to be: a number, a text that a word ends and that does not have
the word before, or a truth value or number that no field has. -/
inductive Condition
  | number (n : Nat)
  | ending (word : String)
  | foreign (word : String)
deriving Repr, DecidableEq

namespace Condition

/-- One more than the largest number that a field can have. -/
def numberBound : Nat := 18446744073709551616

/-- The word is an integer, with or without a sign. -/
def isInteger (word : String) : Bool :=
  let digits := match word.toList with
    | '-' :: digits | '+' :: digits => digits
    | digits => digits
  !digits.isEmpty && digits.all Char.isDigit

/-- The condition that a word stands for. -/
def ofWord (word : String) : Condition :=
  match Numeral.natBelow? numberBound word with
  | some n => .number n
  | none =>
    if word = "true" ∨ word = "false" ∨ isInteger word then .foreign word else .ending word

/-- A word first stands in a text at its end. -/
def endsWithFirst (word : List Char) : List Char → Bool
  | [] => word.isEmpty
  | c :: rest =>
    if word.isPrefixOf (c :: rest) then word.length == rest.length + 1
    else endsWithFirst word rest

/-- The condition holds of a value. -/
def holds : Condition → Json → Bool
  | .number n, .number (.int value) => value == n
  | .ending word, .string text => endsWithFirst word.toList text.toList
  | _, _ => false

end Condition

/-- A field that a directive asks for, perhaps with a condition on its value. -/
structure FieldTest where
  name : String
  value : Option Condition
deriving Repr, DecidableEq

namespace FieldTest

/-- Reads a test: a name, or a name and a value with an equals sign between them. -/
def ofText (text : String) : FieldTest :=
  match Text.splitOn '=' text with
  | name :: value :: _ => ⟨name, some (.ofWord value)⟩
  | _ => ⟨text, none⟩

/-- The field is among some. -/
def isAbout (fields : List (String × Json)) (t : FieldTest) : Bool :=
  fields.any fun field => field.1 == t.name

/-- The field is among some and meets the condition. -/
def holds (fields : List (String × Json)) (t : FieldTest) : Bool :=
  fields.any fun field => field.1 == t.name && t.value.all (·.holds field.2)

end FieldTest

/-- A directive: what it is about, and the rank up to which that gets through. -/
structure Directive where
  origin : Option String
  run : Option String
  field : Option FieldTest
  rank : Nat
deriving Repr, DecidableEq

/-- The part of a directive that is being read. -/
inductive DirectivePart
  | start
  | word
  | run
  | field
  | fieldEnd
  | bracketEnd
  | level
deriving Repr, DecidableEq

/-- A directive that has been read in part, with the letters of the current word, last one first. -/
structure DirectiveReading where
  part : DirectivePart
  letters : List Char
  directive : Directive
deriving Repr

namespace DirectiveReading

/-- Nothing has been read. A directive without a level lets everything through. -/
def initial : DirectiveReading := ⟨.start, [], ⟨none, none, none, Level.trace.rank⟩⟩

/-- The current word. -/
def text (r : DirectiveReading) : String := String.ofList r.letters.reverse

/-- The next part begins. -/
def enter (part : DirectivePart) (directive : Directive) : Option DirectiveReading :=
  some ⟨part, [], directive⟩

/-- A directive can begin with the character, other than with a bracket. -/
def opensWord (c : Char) : Bool := "-:_".contains c || Text.isAlphanumeric c

/-- One character, which is read as a sign and kept as a letter. -/
def step (r : DirectiveReading) (sign letter : Char) : Option DirectiveReading :=
  let d := r.directive
  let longer : DirectiveReading := { r with letters := letter :: r.letters }
  match r.part, sign with
  | .start, '[' => enter .run d
  | .start, c => if opensWord c then some { longer with part := .word } else none
  | .word, '=' => enter .level { d with origin := some r.text }
  | .word, '[' => enter .run { d with origin := some r.text }
  | .run, ']' => enter .bracketEnd { d with run := some r.text }
  | .run, '\x7b' => enter .field { d with run := if r.letters.isEmpty then none else some r.text }
  | .field, '\x7d' =>
    if r.letters.isEmpty then none else enter .fieldEnd { d with field := some (.ofText r.text) }
  | .fieldEnd, ']' => enter .bracketEnd d
  | .fieldEnd, _ => none
  | .bracketEnd, '=' => enter .level d
  | .bracketEnd, _ => none
  | _, _ => some longer

/-- The end of a directive, with letters that are left. A word by itself is a level if it can be,
and else an origin. -/
def finish (r : DirectiveReading) (rest : List Char) : Option Directive :=
  let word := String.ofList (r.letters.reverse ++ rest)
  match r.part with
  | .word =>
    match Level.rankNamed? word with
    | some rank => some { r.directive with rank }
    | none => some { r.directive with origin := some word }
  | .level =>
    if word = "" then some r.directive
    else (Level.rankNamed? word).map fun rank => { r.directive with rank }
  | .bracketEnd => some r.directive
  | .start | .run | .field | .fieldEnd => none

/-- Reads signs, with the letters that are kept in their places. -/
def readOn (r : DirectiveReading) : List Char → List Char → Option Directive
  | [], rest => r.finish rest
  | _ :: _, [] => none
  | sign :: signs, letter :: letters =>
    (r.step sign letter).bind fun next => next.readOn signs letters

end DirectiveReading

namespace Directive

/-- Reads a directive. White space around it is no sign, but words are made of the letters that
stand in the places of their signs in the whole text: where that begins with a blank, so does its
first word. -/
def parse? (text : String) : Option Directive :=
  DirectiveReading.initial.readOn (Text.trim text).toList text.toList

/-- Two directives are about the same. -/
def sameMatter (d other : Directive) : Bool :=
  d.origin == other.origin && d.run == other.run && d.field == other.field

/-- The directive asks for neither a run nor the value of a field. -/
def standsAlone (d : Directive) : Bool := d.run.isNone && d.field.all (·.value.isNone)

/-- The directive asks for a run or a field. -/
def looksInside (d : Directive) : Bool := d.run.isSome || d.field.isSome

/-- The directive speaks of an origin. -/
def speaksOf (origin : String) (d : Directive) : Bool :=
  d.origin.all fun start => Text.beginsWith start origin

/-- The directive is about an event, wherever that happens. -/
def concerns (e : JournalEvent) (d : Directive) : Bool :=
  d.standsAlone && d.speaksOf e.origin && d.field.all (·.isAbout e.facts)

/-- The directive is about what happens inside of a run, as far as its conditions hold. -/
def followsRun (run : RunLabel) (d : Directive) : Bool :=
  d.looksInside && d.speaksOf runOrigin && d.run.all (· == RunLabel.title) &&
    d.field.all (·.isAbout run.fields)

/-- A directive is no less specific than another: by its origin first, then by its field. -/
def atLeast (d other : Directive) : Bool :=
  let reach (d : Directive) : Nat := d.origin.elim 0 fun origin => origin.length + 1
  let fieldName (d : Directive) : String := d.field.elim "" FieldTest.name
  Nat.blt (reach other) (reach d) ||
    reach other == reach d && !decide (fieldName d < fieldName other)

end Directive

/-- A filter. -/
abbrev JournalFilter := List Directive

namespace JournalFilter

/-- The filter that lets everything up to a level through. -/
def upTo (level : Level) : JournalFilter := [⟨none, none, none, level.rank⟩]

/-- The directives without those that a later one on the same matter replaces. -/
def settle : List Directive → JournalFilter
  | [] => []
  | d :: rest => if rest.any d.sameMatter then settle rest else d :: settle rest

/-- Reads directives with commas between them. Without any, only errors get through. -/
def parse? (text : String) : Option JournalFilter :=
  match (Text.splitOn ',' text).filter (· != "") with
  | [] => some (upTo .error)
  | words => (words.mapM Directive.parse?).map settle

/-- The filter that is asked for, or one by whether the journal is to be verbose. A text that is no
filter counts as none. -/
def choose (asked : Option String) (verbose : Bool) : JournalFilter :=
  (asked.bind parse?).getD (upTo (if verbose then .info else .warn))

/-- The rank of the most specific directive; nothing gets through where there is none. -/
def decisiveRank (directives : List Directive) : Nat :=
  let sharper (best : Option Directive) (d : Directive) : Option Directive :=
    if best.all d.atLeast then some d else best
  (directives.foldl sharper none).elim 0 Directive.rank

/-- The rank up to which events inside of a run get through besides. -/
def rankInside (filter : JournalFilter) (run : RunLabel) : Nat :=
  let holding := filter.filter fun d => d.followsRun run && d.field.all (·.holds run.fields)
  (holding.map Directive.rank).foldl max 0

/-- The event gets through. -/
def admits (filter : JournalFilter) (e : JournalEvent) : Bool :=
  Nat.ble e.level.rank (decisiveRank (filter.filter (·.concerns e))) ||
    e.place.surrounding?.any fun run => Nat.ble e.level.rank (filter.rankInside run)

/-- The filter takes note of a run: a directive follows it, or lets the level of runs through. -/
def notes (filter : JournalFilter) (run : RunLabel) : Bool :=
  filter.any (·.followsRun run) ||
    Nat.ble Level.info.rank
      (decisiveRank (filter.filter fun d => d.standsAlone && d.speaksOf runOrigin))

/-- The event as it gets through, if it does. One from a run that is not noted has no place. -/
def pass? (filter : JournalFilter) (e : JournalEvent) : Option JournalEvent :=
  if filter.admits e then
    some (if e.place.run?.all filter.notes then e else { e with place := .outside })
  else none

end JournalFilter

end WireParity.CommandLine
