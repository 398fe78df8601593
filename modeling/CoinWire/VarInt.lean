import CoinWire.Error

/-!
# Variable-length integers

Counts and lengths take one, three, five or nine bytes: values below `0xfd` stand for
themselves, the other first bytes announce a little-endian body of two, four or eight bytes.
Only the shortest form is read, so a value that was read is written as the bytes it came from.
-/

namespace CoinWire.VarInt

/-- Number of bytes of the shortest form. -/
def size (value : UInt64) : Nat :=
  if value < 0xFD then 1
  else if value ≤ 0xFFFF then 3
  else if value ≤ 0xFFFFFFFF then 5
  else 9

def encode (value : UInt64) : Bytes :=
  if value < 0xFD then [value.toUInt8]
  else if value ≤ 0xFFFF then 0xFD :: Bytes.littleEndian 2 value.toNat
  else if value ≤ 0xFFFFFFFF then 0xFE :: Bytes.littleEndian 4 value.toNat
  else 0xFF :: Bytes.littleEndian 8 value.toNat

/-- Width of the body that a first byte announces; none if the byte stands for itself. -/
def bodyWidth? (first : UInt8) : Option Nat :=
  if first = 0xFD then some 2
  else if first = 0xFE then some 4
  else if first = 0xFF then some 8
  else none

/-- The value at the front of a byte string and the number of bytes it takes. -/
def decode : Bytes → Except CodecError (UInt64 × Nat)
  | [] => .error (.underrun 1 0)
  | first :: rest =>
    match bodyWidth? first with
    | none => .ok (first.toUInt64, 1)
    | some width =>
      let body := rest.take width
      if body.length = width then
        let value := UInt64.ofNat (Bytes.ofLittleEndian body)
        if size value = 1 + width then .ok (value, 1 + width)
        else .error (.violation (.overlongVarInt value (1 + width)))
      else .error (.underrun width rest.length)

/-- The form of a list's length. -/
def ofLength {α : Type} (list : List α) : Bytes :=
  encode (UInt64.ofNat list.length)

/-- Number of bytes of the form of a length. -/
def lengthSize (length : Nat) : Nat :=
  size (UInt64.ofNat length)

@[simp]
theorem length_encode (value : UInt64) : (encode value).length = size value := by
  unfold encode size
  split
  · rfl
  · split
    · simp
    · split <;> simp

@[simp]
theorem length_ofLength {α : Type} (list : List α) :
    (ofLength list).length = lengthSize list.length :=
  length_encode _

end CoinWire.VarInt

namespace CoinWire.Bytes

/-- A byte string with its length in front. -/
def counted (bytes : Bytes) : Bytes :=
  VarInt.ofLength bytes ++ bytes

/-- Number of bytes of `counted` for a byte string of this length. -/
def countedSize (length : Nat) : Nat :=
  VarInt.lengthSize length + length

theorem length_counted (bytes : Bytes) : bytes.counted.length = countedSize bytes.length := by
  simp [counted, countedSize]

end CoinWire.Bytes
