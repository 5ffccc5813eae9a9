import WireParity.Bytes.Hex

/-!
# The CRC-32 checksum

The remainder register starts with all bits set, takes each byte from its low end, and is
complemented at the end.
-/

namespace WireParity.Checksum

/-- The reflected generator polynomial. -/
def polynomial : UInt32 := 0xedb88320

/-- One bit leaves the register. -/
def shift (register : UInt32) : UInt32 :=
  if register &&& 1 = 1 then (register >>> 1) ^^^ polynomial else register >>> 1

/-- The register after `n` bits have left it. -/
def shifts : Nat → UInt32 → UInt32
  | 0, register => register
  | n + 1, register => shifts n (shift register)

/-- The register after one more byte. -/
def step (register : UInt32) (b : UInt8) : UInt32 := shifts 8 (register ^^^ b.toUInt32)

/-- The CRC-32 of a byte string. -/
def crc32 (bytes : Bytes) : UInt32 := ~~~ bytes.foldl step 0xffffffff

end WireParity.Checksum
