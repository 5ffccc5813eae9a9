import WireParity.Bytes.Hex

/-!
# A second account of scalars and offsets

The rules of the wire once more, on their own and on 64-bit words: the bytes of a scalar are taken
by shifts, put together again by shifts, and fields follow one another without gaps. Nothing here
uses the codec, so that the two accounts can be held against each other.
-/

namespace WireParity.WireModel

/-- The low `width` bytes of a word, least significant first. -/
def encodeScalar (bits : UInt64) : Nat → Bytes
  | 0 => []
  | width + 1 => bits.toUInt8 :: encodeScalar (bits >>> 8) width

/-- A reading that needs more bytes than there are. -/
structure Truncated where
  needed : Nat
  available : Nat
deriving Repr, DecidableEq

/-- The word whose bytes are given, least significant first. -/
def joinBytes : Bytes → UInt64
  | [] => 0
  | b :: rest => b.toUInt64 ||| (joinBytes rest <<< 8)

/-- The word in the first `width` bytes. -/
def decodeScalar (bytes : Bytes) (width : Nat) : Except Truncated UInt64 :=
  if bytes.length < width then .error ⟨width, bytes.length⟩ else .ok (joinBytes (bytes.take width))

/-- The offsets of fields of the given widths, the first of which starts at an offset. -/
def denseOffsetsFrom (offset : Nat) : List Nat → List Nat
  | [] => []
  | width :: rest => offset :: denseOffsetsFrom (offset + width) rest

/-- The offsets of fields of the given widths. -/
def denseOffsets (widths : List Nat) : List Nat := denseOffsetsFrom 0 widths

end WireParity.WireModel
