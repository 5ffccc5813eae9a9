import WireParity.Value.Scalar

/-!
# Scalars and their bytes

The bytes of a scalar and its kind determine it, and any bytes of the right number are the bytes of
a scalar. Nothing is said about numbers, so patterns of floats are moved like all others.
-/

namespace WireParity.Scalar

/-- A scalar takes as many bytes as its kind is wide. -/
@[simp] theorem length_bytes (x : Scalar) : x.bytes.length = x.kind.width :=
  LittleEndian.length_ofNat x.kind.width x.bits

/-- A pattern that fits is kept as it is. -/
theorem ofBits_bits (x : Scalar) : ofBits x.kind x.bits = x := by
  cases x with
  | mk kind bits fits =>
    rw [ofBits, Scalar.mk.injEq]
    exact ⟨rfl, Nat.mod_eq_of_lt fits⟩

/-- A scalar is read back from its bytes. -/
theorem ofBytes_bytes (x : Scalar) : ofBytes x.kind x.bytes = x := by
  have hbits : LittleEndian.toNat x.bytes = x.bits := by
    rw [bytes, LittleEndian.toNat_ofNat, Nat.mod_eq_of_lt x.fits]
  rw [ofBytes, hbits, ofBits_bits]

/-- Bytes of the right number are the bytes of the scalar that is read from them. -/
theorem bytes_ofBytes {kind : ScalarKind} {bytes : Bytes} (hlength : bytes.length = kind.width) :
    (ofBytes kind bytes).bytes = bytes := by
  have hfits := LittleEndian.toNat_lt bytes
  change LittleEndian.ofNat kind.width (LittleEndian.toNat bytes % Nat.pow 256 kind.width) = bytes
  rw [← hlength, Nat.mod_eq_of_lt hfits, LittleEndian.ofNat_toNat]

end WireParity.Scalar
