import Mathlib
import CoinWire.Bytes

/-!
# Little-endian numbers

The low bytes of a number read back as the number modulo the power of 256 that they reach, and
what is read from bytes stays below that power.
-/

namespace CoinWire.Bytes

/-- Written to too few bytes, a number loses its high end. -/
theorem ofLittleEndian_littleEndian (width value : Nat) :
    ofLittleEndian (littleEndian width value) = value % 256 ^ width := by
  induction width generalizing value with
  | zero => simp [littleEndian, ofLittleEndian, Nat.mod_one]
  | succ width ih =>
    have hbyte : (UInt8.ofNat value).toNat = value % 256 := by simp
    calc
      ofLittleEndian (littleEndian (width + 1) value) =
          (UInt8.ofNat value).toNat + 256 * ofLittleEndian (littleEndian width (value / 256)) := rfl
      _ = value % 256 + 256 * (value / 256 % 256 ^ width) := by rw [hbyte, ih]
      _ = value % 256 ^ (width + 1) := by rw [Nat.pow_succ', Nat.mod_mul]

/-- The bytes bound the number. -/
theorem ofLittleEndian_lt (bytes : Bytes) : ofLittleEndian bytes < 256 ^ bytes.length := by
  induction bytes with
  | nil => simp [ofLittleEndian]
  | cons byte bytes ih =>
    have := byte.toNat_lt
    simp only [ofLittleEndian, List.length_cons, Nat.pow_succ']
    omega

theorem ofLittleEndian_append (front back : Bytes) :
    ofLittleEndian (front ++ back) =
      ofLittleEndian front + 256 ^ front.length * ofLittleEndian back := by
  induction front with
  | nil => simp [ofLittleEndian]
  | cons byte front ih =>
    calc
      ofLittleEndian (byte :: front ++ back) =
          byte.toNat + 256 * ofLittleEndian (front ++ back) := rfl
      _ = byte.toNat + 256 * (ofLittleEndian front + 256 ^ front.length * ofLittleEndian back) := by
        rw [ih]
      _ = ofLittleEndian (byte :: front) +
          256 ^ (byte :: front).length * ofLittleEndian back := by
        rw [List.length_cons, Nat.pow_succ', ofLittleEndian]
        ring

end CoinWire.Bytes
