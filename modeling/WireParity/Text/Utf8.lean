import WireParity.Bytes.Hex

/-!
# UTF-8

A machine takes octets one at a time. An octet that cannot continue what has begun ends it; the
octets so far then stand for nothing, which `decode` shows as a gap. A text is valid when there are
no gaps, and `lossy` puts a replacement character into each.
-/

namespace WireParity.Utf8

/-- Where the machine stands: between characters, or with octets still owed, the next of which has
to lie between two bounds. -/
inductive State
  | start
  | owed (count value low high : Nat)
deriving Repr, DecidableEq

/-- The first octet of a character. -/
def first (octet : Nat) : List (Option Char) × State :=
  if octet < 0x80 then ([some (Char.ofNat octet)], .start)
  else if 0xc2 ≤ octet ∧ octet ≤ 0xdf then ([], .owed 1 (octet - 0xc0) 0x80 0xbf)
  else if 0xe0 ≤ octet ∧ octet ≤ 0xef then
    ([], .owed 2 (octet - 0xe0) (if octet = 0xe0 then 0xa0 else 0x80)
      (if octet = 0xed then 0x9f else 0xbf))
  else if 0xf0 ≤ octet ∧ octet ≤ 0xf4 then
    ([], .owed 3 (octet - 0xf0) (if octet = 0xf0 then 0x90 else 0x80)
      (if octet = 0xf4 then 0x8f else 0xbf))
  else ([none], .start)

/-- One octet: the characters and gaps it completes, and the next state. -/
def step : State → Nat → List (Option Char) × State
  | .start, octet => first octet
  | .owed count value low high, octet =>
    if low ≤ octet ∧ octet ≤ high then
      let value := 64 * value + (octet - 0x80)
      if count ≤ 1 then ([some (Char.ofNat value)], .start)
      else ([], .owed (count - 1) value 0x80 0xbf)
    else
      let next := first octet
      (none :: next.1, next.2)

/-- The characters and gaps of the rest of the octets, after those that are done, last one first. -/
def decodeFrom : State → List (Option Char) → Bytes → List (Option Char)
  | .start, done, [] => done.reverse
  | .owed _ _ _ _, done, [] => (none :: done).reverse
  | state, done, b :: rest =>
    let next := step state b.toNat
    decodeFrom next.2 (next.1.reverse ++ done) rest

/-- The characters of octets, with gaps. -/
def decode (bytes : Bytes) : List (Option Char) := decodeFrom .start [] bytes

/-- The text that octets stand for, if they are valid. -/
def text? (bytes : Bytes) : Option String :=
  ((decode bytes).mapM id).map String.ofList

/-- The text that octets stand for, with a replacement character for each gap. -/
def lossy (bytes : Bytes) : String :=
  String.ofList ((decode bytes).map fun c => c.getD '\ufffd')

/-- The octets of a text. -/
def encode (text : String) : Bytes := text.toUTF8.data.toList

end WireParity.Utf8
