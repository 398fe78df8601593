/-!
# Byte strings

Wire data is a list of bytes. Fields of fixed width are `Octets`, lists that carry their
length. Integers travel little-endian; one pair of functions serves every width, and the
round-trip laws are stated on it.
-/

namespace CoinWire

abbrev Bytes := List UInt8

/-- Byte strings of length `n`. -/
structure Octets (n : Nat) where
  toBytes : Bytes
  length_toBytes : toBytes.length = n
deriving DecidableEq

namespace Octets

@[ext]
theorem ext {n : Nat} {a b : Octets n} (h : a.toBytes = b.toBytes) : a = b := by
  cases a
  cases b
  simp_all

def ofBytes? (n : Nat) (bytes : Bytes) : Option (Octets n) :=
  if h : bytes.length = n then some ⟨bytes, h⟩ else none

def zero (n : Nat) : Octets n :=
  ⟨List.replicate n 0, List.length_replicate⟩

def isZero {n : Nat} (octets : Octets n) : Bool :=
  octets.toBytes.all (· == 0)

/-- The same octets, last one first. -/
def reverse {n : Nat} (octets : Octets n) : Octets n :=
  ⟨octets.toBytes.reverse, by simp [octets.length_toBytes]⟩

/-- Dictionary order of the bytes. -/
def le {n : Nat} (a b : Octets n) : Bool :=
  decide (a.toBytes ≤ b.toBytes)

instance {n : Nat} : Inhabited (Octets n) := ⟨zero n⟩

theorem ofBytes?_toBytes {n : Nat} (octets : Octets n) :
    ofBytes? n octets.toBytes = some octets := by
  simp [ofBytes?, octets.length_toBytes]

theorem reverse_reverse {n : Nat} (octets : Octets n) : octets.reverse.reverse = octets := by
  ext1
  simp [reverse]

end Octets

namespace Bytes

/-- Decides `count ≤ bytes.length` in at most `count` steps. -/
def holds (bytes : Bytes) (count : Nat) : Bool :=
  count == 0 || !(bytes.drop (count - 1)).isEmpty

theorem holds_iff (bytes : Bytes) (count : Nat) :
    bytes.holds count = true ↔ count ≤ bytes.length := by
  cases count with
  | zero => simp [holds]
  | succ count =>
    have hdrop : (bytes.drop count).isEmpty = true ↔ bytes.length ≤ count := by
      rw [List.isEmpty_iff, List.drop_eq_nil_iff]
    have hnot : (!(bytes.drop count).isEmpty) = true ↔ count < bytes.length := by
      rw [Bool.not_eq_true', ← Bool.not_eq_true, hdrop, Nat.not_le]
    rw [holds, Bool.or_eq_true, beq_iff_eq, Nat.add_sub_cancel, hnot]
    omega

/-! ## Integers -/

/-- The low `width` bytes of `value`, least significant first. -/
def littleEndian : (width : Nat) → (value : Nat) → Bytes
  | 0, _ => []
  | width + 1, value => UInt8.ofNat value :: littleEndian width (value / 256)

def ofLittleEndian : Bytes → Nat
  | [] => 0
  | byte :: bytes => byte.toNat + 256 * ofLittleEndian bytes

@[simp]
theorem length_littleEndian (width value : Nat) : (littleEndian width value).length = width := by
  induction width generalizing value with
  | zero => rfl
  | succ width ih => simp [littleEndian, ih]

theorem littleEndian_ofLittleEndian (bytes : Bytes) :
    littleEndian bytes.length (ofLittleEndian bytes) = bytes := by
  induction bytes with
  | nil => rfl
  | cons byte bytes ih =>
    have hbyte : UInt8.ofNat (byte.toNat + 256 * ofLittleEndian bytes) = byte := by
      apply UInt8.toNat_inj.1
      simp
    have hrest : (byte.toNat + 256 * ofLittleEndian bytes) / 256 = ofLittleEndian bytes := by
      have := byte.toNat_lt
      omega
    simp [littleEndian, ofLittleEndian, hbyte, hrest, ih]

def ofUInt32 (value : UInt32) : Bytes :=
  littleEndian 4 value.toNat

def ofUInt64 (value : UInt64) : Bytes :=
  littleEndian 8 value.toNat

/-- Two's complement. -/
def ofInt64 (value : Int64) : Bytes :=
  ofUInt64 value.toUInt64

/-- Ports alone are written most significant byte first. -/
def ofPort (value : UInt16) : Bytes :=
  (littleEndian 2 value.toNat).reverse

@[simp]
theorem length_ofUInt32 (value : UInt32) : (ofUInt32 value).length = 4 :=
  length_littleEndian 4 _

@[simp]
theorem length_ofUInt64 (value : UInt64) : (ofUInt64 value).length = 8 :=
  length_littleEndian 8 _

@[simp]
theorem length_ofInt64 (value : Int64) : (ofInt64 value).length = 8 :=
  length_ofUInt64 _

@[simp]
theorem length_ofPort (value : UInt16) : (ofPort value).length = 2 := by
  simp [ofPort]

end Bytes

end CoinWire
