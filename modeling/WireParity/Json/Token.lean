import WireParity.Json.Basic
import WireParity.Bytes.Hex
import WireParity.Number.Shortest

/-!
# The tokens of a JSON text

A machine reads the text one character at a time. Its state says what the characters since the
last token belong to; a character that ends a number or a word may be a token itself. Numbers
without a fraction or an exponent that fit 64 bits are integers, all others are doubles, rounded
correctly.
-/

namespace WireParity.Json

/-- What a text is made of. A string or number that denotes nothing is a token without content. -/
inductive Token
  | openArray
  | closeArray
  | openObject
  | closeObject
  | comma
  | colon
  | null
  | bool (b : Bool)
  | number (n : Option JsonNumber)
  | string (s : Option String)
deriving Repr, DecidableEq

namespace Token

/-- The double of a decimal with a positive digit string, `none` where it is too large. Exponents
far out of range are settled without computing the power. The rounding is correct for all decimals. The
text layer that manifests, values and responses go through rounds the digits and the power of ten one
after the other, so for decimals of more than fifteen digits, or with large exponents, what it reads may
be a neighbour of this double. -/
def double? (negative : Bool) (digits : Nat) (exponent : Int) : Option JsonNumber :=
  let f := FloatFormat.binary64
  let point := Decimal.digitCount digits + exponent
  let magnitude :=
    if digits = 0 ∨ point < -400 then 0
    else if 400 < point then f.infinity
    else Decimal.read f ⟨digits, exponent⟩
  if magnitude = f.infinity then none
  else some (.float (UInt64.ofNat (f.withSign negative magnitude)))

/-- The natural that decimal digits denote. -/
def decimalValue (digits : List Char) : Nat :=
  digits.foldl (fun n c => 10 * n + (c.toNat - 48)) 0

/-- An integer part has no needless zeros. -/
def isIntegerPart : List Char → Bool
  | [] => false
  | ['0'] => true
  | '0' :: _ => false
  | _ => true

/-- An exponent: its sign and digits. -/
def exponent? : List Char → Option Int
  | 'e' :: rest | 'E' :: rest =>
    let (negative, digits) := match rest with
      | '-' :: digits => (true, digits)
      | '+' :: digits => (false, digits)
      | digits => (false, digits)
    if digits.isEmpty ∨ !digits.all Char.isDigit then none
    else some (if negative then -decimalValue digits else decimalValue digits)
  | [] => some 0
  | _ => none

/-- The number of an unsigned numeral with its sign set apart. -/
def unsigned? (negative : Bool) (text : List Char) : Option (Option JsonNumber) :=
  let whole := text.takeWhile Char.isDigit
  let rest := text.dropWhile Char.isDigit
  if !isIntegerPart whole then none
  else match rest with
    | [] =>
      let n := decimalValue whole
      if negative ∧ 0 < n ∧ n ≤ Nat.pow 2 63 then some (some (.int (-n)))
      else if !negative ∧ n < Nat.pow 2 64 then some (some (.int n))
      else some (double? negative n 0)
    | '.' :: rest =>
      let fraction := rest.takeWhile Char.isDigit
      if fraction.isEmpty then none
      else (exponent? (rest.dropWhile Char.isDigit)).map fun e =>
        double? negative (decimalValue (whole ++ fraction)) (e - fraction.length)
    | rest => (exponent? rest).map fun e => double? negative (decimalValue whole) e

/-- The token of a run of the characters that numbers are made of. -/
def ofNumeral? (text : List Char) : Option Token :=
  (match text with
    | '-' :: rest => unsigned? true rest
    | rest => unsigned? false rest).map .number

/-- The token of a word. -/
def ofWord? (text : List Char) : Option Token :=
  if text = "null".toList then some .null
  else if text = "true".toList then some (.bool true)
  else if text = "false".toList then some (.bool false)
  else none

/-- What the characters since the last token belong to. Characters are held last one first; a
string's content is `none` once a lone surrogate has been seen, and `high` is a first half that
waits for the second. -/
inductive State
  | gap
  | numeral (text : List Char)
  | word (text : List Char)
  | string (content : Option (List Char)) (high : Option Nat)
  | escape (content : Option (List Char)) (high : Option Nat)
  | unicode (content : Option (List Char)) (high : Option Nat) (digits : Nat) (value : Nat)
deriving Repr, DecidableEq

/-- A numeral may continue with this character. -/
def isNumeralChar (c : Char) : Bool := c.isDigit || "+-.eE".toList.contains c

/-- The content of a string with one more character; a first half before it stands alone. -/
def push (content : Option (List Char)) (high : Option Nat) (c : Char) : Option (List Char) :=
  if high.isSome then none else content.map (c :: ·)

/-- The character of a simple escape. -/
def escaped? : Char → Option Char
  | '"' => some '"'
  | '\\' => some '\\'
  | '/' => some '/'
  | 'b' => some '\x08'
  | 'f' => some '\x0c'
  | 'n' => some '\n'
  | 'r' => some '\r'
  | 't' => some '\t'
  | _ => none

/-- A string's state after an escaped 16-bit unit. -/
def pushUnit (content : Option (List Char)) (high : Option Nat) (unit : Nat) : State :=
  if 0xd800 ≤ unit ∧ unit < 0xdc00 then
    .string (if high.isSome then none else content) (some unit)
  else if 0xdc00 ≤ unit ∧ unit < 0xe000 then
    match high with
    | some first =>
      .string (content.map (Char.ofNat (0x10000 + (first - 0xd800) * 0x400 + (unit - 0xdc00)) :: ·))
        none
    | none => .string none none
  else .string (push content high (Char.ofNat unit)) none

/-- One character between tokens: the token it is, if any, and the next state. -/
def fromGap? (c : Char) : Option (List Token × State) :=
  match c with
  | ' ' | '\t' | '\n' | '\r' => some ([], .gap)
  | '[' => some ([.openArray], .gap)
  | ']' => some ([.closeArray], .gap)
  | '\x7b' => some ([.openObject], .gap)
  | '\x7d' => some ([.closeObject], .gap)
  | ',' => some ([.comma], .gap)
  | ':' => some ([.colon], .gap)
  | '"' => some ([], .string (some []) none)
  | c =>
    if c.isDigit ∨ c = '-' then some ([], .numeral [c])
    else if c.isLower then some ([], .word [c])
    else none

/-- One character: the tokens that it completes and the next state. -/
def step? : State → Char → Option (List Token × State)
  | .gap, c => fromGap? c
  | .numeral text, c =>
    if isNumeralChar c then some ([], .numeral (c :: text))
    else (ofNumeral? text.reverse).bind fun token =>
      (fromGap? c).map fun next => (token :: next.1, next.2)
  | .word text, c =>
    if c.isLower then some ([], .word (c :: text))
    else (ofWord? text.reverse).bind fun token =>
      (fromGap? c).map fun next => (token :: next.1, next.2)
  | .string content high, c =>
    if c = '"' then
      let whole := if high.isSome then none else content
      some ([.string (whole.map fun text => String.ofList text.reverse)], .gap)
    else if c = '\\' then some ([], .escape content high)
    else if c < ' ' then none
    else some ([], .string (push content high c) none)
  | .escape content high, c =>
    if c = 'u' then some ([], .unicode content high 0 0)
    else (escaped? c).map fun plain => ([], .string (push content high plain) none)
  | .unicode content high digits value, c =>
    (Hex.digitValue? c).map fun d =>
      let value := 16 * value + d
      if digits = 3 then ([], pushUnit content high value)
      else ([], .unicode content high (digits + 1) value)

/-- The tokens of the rest of a text, after those that are done, last one first. -/
def scan? : State → List Token → List Char → Option (List Token)
  | .gap, done, [] => some done.reverse
  | .numeral text, done, [] => (ofNumeral? text.reverse).map fun token => (token :: done).reverse
  | .word text, done, [] => (ofWord? text.reverse).map fun token => (token :: done).reverse
  | _, _, [] => none
  | state, done, c :: rest =>
    match step? state c with
    | none => none
    | some (tokens, next) => scan? next (tokens.reverse ++ done) rest

end Token

/-- The tokens of a text, `none` where a character belongs to none. -/
def tokens? (text : String) : Option (List Token) := Token.scan? .gap [] text.toList

end WireParity.Json
