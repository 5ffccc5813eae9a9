import WireParity.Bytes.Hex

/-!
# Little-endian words

A number takes its bytes least significant first, in exactly as many bytes as it is told.
`toNat_ofNat` and `ofNat_toNat` say that writing and reading undo each other.
-/

namespace WireParity.LittleEndian

/-- The low `width` bytes of a number, least significant first. -/
def ofNat : Nat → Nat → Bytes
  | 0, _ => []
  | width + 1, n => UInt8.ofNat (n % 256) :: ofNat width (n / 256)

/-- The number whose bytes are given, least significant first. -/
def toNat : Bytes → Nat
  | [] => 0
  | b :: rest => b.toNat + 256 * toNat rest

/-- A word has the width it was written with. -/
@[simp] theorem length_ofNat (width n : Nat) : (ofNat width n).length = width := by
  induction width generalizing n with
  | zero => rfl
  | succ width ih => simp [ofNat, ih]

/-- A byte string denotes a number that fits its length. -/
theorem toNat_lt (bytes : Bytes) : toNat bytes < Nat.pow 256 bytes.length := by
  induction bytes with
  | nil => simp [toNat]
  | cons b rest ih =>
    have hb := b.toNat_lt
    have more : Nat.pow 256 (rest.length + 1) = 256 * Nat.pow 256 rest.length := Nat.pow_succ'
    rw [toNat, List.length_cons, more]
    omega

/-- Reading a written word gives back the number, less what does not fit. -/
theorem toNat_ofNat (width n : Nat) : toNat (ofNat width n) = n % Nat.pow 256 width := by
  induction width generalizing n with
  | zero => simp [ofNat, toNat, Nat.mod_one]
  | succ width ih =>
    have hb : (UInt8.ofNat (n % 256)).toNat = n % 256 := by simp [UInt8.toNat_ofNat']
    have more : Nat.pow 256 (width + 1) = 256 * Nat.pow 256 width := Nat.pow_succ'
    rw [ofNat, toNat, ih, hb, more, Nat.mod_mul]

/-- Writing what was read gives back the bytes. -/
theorem ofNat_toNat (bytes : Bytes) : ofNat bytes.length (toNat bytes) = bytes := by
  induction bytes with
  | nil => rfl
  | cons b rest ih =>
    have hb := b.toNat_lt
    have low : (b.toNat + 256 * toNat rest) % 256 = b.toNat := by omega
    have high : (b.toNat + 256 * toNat rest) / 256 = toNat rest := by omega
    rw [List.length_cons, ofNat, toNat, low, high, ih, UInt8.ofNat_toNat]

end WireParity.LittleEndian
