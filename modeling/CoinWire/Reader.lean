import CoinWire.Access
import CoinWire.VarInt

/-!
# Reading from the front

A reader is a cursor in a byte string: what it has passed and what lies ahead. A read that fails
for want of bytes leaves the cursor where it was. A read in two steps, a length and then that
many bytes, may fail between them and then stays past the length.
-/

namespace CoinWire

structure Reader where
  /-- The bytes behind the cursor, the last one first. -/
  passed : Bytes
  ahead : Bytes
  position : Nat
  position_eq : position = passed.length

abbrev Read (α : Type) := Access Reader α

namespace Reader

def ofBytes (bytes : Bytes) : Reader :=
  ⟨[], bytes, 0, rfl⟩

/-- The whole byte string, cursor or not. -/
def buffer (reader : Reader) : Bytes :=
  reader.passed.reverse ++ reader.ahead

def remaining (reader : Reader) : Nat :=
  reader.ahead.length

/-- Moves the cursor over `count` bytes, or to the end if fewer are left. -/
def advance (count : Nat) (reader : Reader) : Reader :=
  let front := reader.ahead.take count
  { passed := front.reverseAux reader.passed
    ahead := reader.ahead.drop count
    position := reader.position + front.length
    position_eq := by simp [reader.position_eq, Nat.add_comm] }

/-- The bytes from position `start` up to the cursor. -/
def sliceFrom (start : Nat) (reader : Reader) : Bytes :=
  (reader.passed.take (reader.position - start)).reverse

@[simp]
theorem ahead_advance (count : Nat) (reader : Reader) :
    (reader.advance count).ahead = reader.ahead.drop count := rfl

theorem advance_zero (reader : Reader) : reader.advance 0 = reader := rfl

theorem advance_advance (first second : Nat) (reader : Reader) :
    (reader.advance first).advance second = reader.advance (first + second) := by
  simp [advance, List.take_add, Nat.add_assoc]

/-- What lies between the cursor and where it was before it moved. -/
theorem sliceFrom_advance (count : Nat) (reader : Reader) :
    (reader.advance count).sliceFrom reader.position = reader.ahead.take count := by
  simp [advance, sliceFrom]

theorem buffer_advance (count : Nat) (reader : Reader) :
    (reader.advance count).buffer = reader.buffer := by
  simp [buffer, advance]

theorem length_buffer (reader : Reader) :
    reader.buffer.length = reader.position + reader.remaining := by
  simp [buffer, remaining, reader.position_eq]

theorem position_le_advance (count : Nat) (reader : Reader) :
    reader.position ≤ (reader.advance count).position :=
  Nat.le_add_right _ _

theorem sliceFrom_zero_append_ahead (reader : Reader) :
    reader.sliceFrom 0 ++ reader.ahead = reader.buffer := by
  simp [sliceFrom, buffer, reader.position_eq]

end Reader

namespace Read

open Reader

/-- Takes exactly `count` bytes. -/
def take (count : Nat) : Read (Octets count) := fun reader ↦
  let front := reader.ahead.take count
  if h : front.length = count then .ok ⟨front, h⟩ (reader.advance count)
  else .error (.underrun count reader.remaining) reader

def skip (count : Nat) : Read Unit := do
  discard (take count)

def bytes (count : Nat) : Read Bytes := do
  return (← take count).toBytes

def byte : Read UInt8 := do
  return UInt8.ofNat (Bytes.ofLittleEndian (← bytes 1))

def uint32 : Read UInt32 := do
  return UInt32.ofNat (Bytes.ofLittleEndian (← bytes 4))

def int32 : Read Int32 := do
  return (← uint32).toInt32

def uint64 : Read UInt64 := do
  return UInt64.ofNat (Bytes.ofLittleEndian (← bytes 8))

def int64 : Read Int64 := do
  return (← uint64).toInt64

/-- Ports alone are written most significant byte first. -/
def port : Read UInt16 := do
  return UInt16.ofNat (Bytes.ofLittleEndian (← bytes 2).reverse)

/-! ## Counts and lengths -/

def varInt : Read UInt64 := fun reader ↦
  match VarInt.decode reader.ahead with
  | .ok (value, used) => .ok value (reader.advance used)
  | .error e => .error e reader

/-- A count of items of at least `minSize` bytes each. A count that the bytes left cannot hold is
refused, after it was read. -/
def count (minSize : Nat) (what : String) : Read Nat := do
  let value ← varInt
  let reader ← get
  if reader.ahead.holds (value.toNat * max minSize 1) then return value.toNat
  else throw (.violation (.excessiveCount what value reader.remaining))

/-- As `count`, with a limit of its own. -/
def countUpTo (limit minSize : Nat) (what : String) : Read Nat := do
  let value ← count minSize what
  if value ≤ limit then return value
  else throw (.violation (.tooManyEntries what value limit))

/-- A length and that many bytes. -/
def countedBytes : Read Bytes := do
  let length ← varInt
  bytes length.toNat

def skipCounted : Read Unit := do
  discard countedBytes

/-- A length and text of that many bytes. Bytes that are no text read as replacement
characters. -/
def countedText : Read String := do
  return Text.Utf8.decodeLossy (← countedBytes)

theorem take_apply (count : Nat) (reader : Reader) :
    take count reader =
      if h : count ≤ reader.remaining then
        .ok ⟨reader.ahead.take count, List.length_take_of_le h⟩ (reader.advance count)
      else .error (.underrun count reader.remaining) reader := by
  have hiff : (reader.ahead.take count).length = count ↔ count ≤ reader.remaining := by
    rw [List.length_take, Reader.remaining]
    omega
  unfold take
  simp only [hiff]

theorem bytes_apply (count : Nat) (reader : Reader) :
    bytes count reader =
      if count ≤ reader.remaining then .ok (reader.ahead.take count) (reader.advance count)
      else .error (.underrun count reader.remaining) reader := by
  rw [bytes, Access.bind_apply, take_apply]
  by_cases h : count ≤ reader.remaining
  · rw [dif_pos h, if_pos h]
    rfl
  · rw [dif_neg h, if_neg h]

/-! ## Repetition -/

variable {α : Type}

/-- Adds `count` items to `found`, which is in reverse. -/
def repeatOnto (item : Read α) (found : List α) : Nat → Read (List α)
  | 0 => fun reader ↦ .ok found.reverse reader
  | count + 1 => fun reader ↦
    match item reader with
    | .ok a reader' => repeatOnto item (a :: found) count reader'
    | .error e reader' => .error e reader'

/-- Reads `count` items, one after the other. -/
def times (count : Nat) (item : Read α) : Read (List α) :=
  repeatOnto item [] count

theorem repeatOnto_eq (item : Read α) (found : List α) (count : Nat) (reader : Reader) :
    repeatOnto item found count reader =
      match times count item reader with
      | .ok items reader' => .ok (found.reverse ++ items) reader'
      | .error e reader' => .error e reader' := by
  induction count generalizing found reader with
  | zero => simp [times, repeatOnto]
  | succ count ih =>
    simp only [times, repeatOnto]
    cases item reader with
    | ok a reader' =>
      simp only [ih (a :: found), ih [a]]
      cases times count item reader' <;> simp
    | error e reader' => simp

@[simp]
theorem times_zero (item : Read α) (reader : Reader) : times 0 item reader = .ok [] reader := rfl

theorem times_succ (count : Nat) (item : Read α) (reader : Reader) :
    times (count + 1) item reader =
      match item reader with
      | .ok a reader' =>
        match times count item reader' with
        | .ok items reader'' => .ok (a :: items) reader''
        | .error e reader'' => .error e reader''
      | .error e reader' => .error e reader' := by
  rw [times, repeatOnto]
  cases hitem : item reader with
  | ok a reader' =>
    simp only [hitem, repeatOnto_eq]
    cases times count item reader' <;> simp
  | error e reader' => simp [hitem]

/-- A count and that many items, none of which takes less than `minSize` bytes. -/
def counted (minSize : Nat) (what : String) (item : Read α) : Read (List α) := do
  times (← count minSize what) item

end Read

end CoinWire
