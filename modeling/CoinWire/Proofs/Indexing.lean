import Mathlib
import CoinWire.Proofs.Stopping

/-!
# Reading by index

A reader as a buffer and the index of the next byte, a number of 64 bits. Sums, differences and
quotients of such numbers are checked to be in their range, and slices to lie in their list; steps
in which one of them is not have no outcome. The reads are taken apart into such steps. In a buffer
whose length is a number of 64 bits they have an outcome for every length that they are given or
find, and it is the outcome of the read.
-/

namespace CoinWire

/-- A place in a buffer. What is read lies behind it, what is passed before it. -/
structure Cursor where
  buffer : Bytes
  /-- The index of the next byte. -/
  index : UInt64

/-- Steps on a cursor. They answer or fail and leave a cursor, or they have no outcome because
something was out of range. -/
abbrev Checked (α : Type) := ExceptT CodecError (StateT Cursor Option) α

namespace Checked

variable {α β : Type}

/-- What the steps come to from a cursor: an answer or an error with the cursor left, or nothing. -/
def outcome (steps : Checked α) (cursor : Cursor) : Option (Except CodecError α × Cursor) :=
  steps.run.run cursor

/-! ## Numbers and slices -/

/-- The sum of two numbers, if it is below `2 ^ 64`. -/
def plus (a b : UInt64) : Option UInt64 :=
  if a.toNat + b.toNat < 2 ^ 64 then some (a + b) else none

/-- The difference of two numbers, if it is not negative. -/
def minus (a b : UInt64) : Option UInt64 :=
  if b ≤ a then some (a - b) else none

/-- The quotient of two numbers, if the second is not zero. -/
def quotient (a b : UInt64) : Option UInt64 :=
  if b = 0 then none else some (a / b)

/-- The length of a byte string, as a number of 64 bits. -/
def length (bytes : Bytes) : UInt64 :=
  UInt64.ofNat bytes.length

/-- The bytes from `start` up to `stop`. -/
def slice (bytes : Bytes) (start stop : UInt64) : Option Bytes :=
  if start ≤ stop ∧ stop.toNat ≤ bytes.length then
    some (bytes.extract start.toNat stop.toNat)
  else none

/-- The buffer that a number is put into before it is decoded. -/
def zeros : Bytes :=
  List.replicate 8 0

/-- The bytes copied over the first `width` of eight zeros. -/
def copied (width : UInt64) (bytes : Bytes) : Option Bytes := do
  let place ← slice zeros 0 width
  if place.length = bytes.length then some (bytes ++ zeros.drop width.toNat) else none

/-! ## Steps -/

/-- The number of bytes from the index on. The index must not be behind the buffer. -/
def remaining : Checked UInt64 := do
  let cursor ← get
  minus (length cursor.buffer) cursor.index

/-- Fails if fewer bytes are left. -/
def room (count : UInt64) : Checked Unit := do
  let left ← remaining
  if left < count then throw (.underrun count.toNat left.toNat)

/-- Moves the index, then looks at what it has passed. -/
def take (count : UInt64) : Checked Bytes := do
  room count
  let cursor ← get
  let stop ← plus cursor.index count
  set { cursor with index := stop }
  slice cursor.buffer cursor.index stop

/-- A take as an array. The slice must be as long as the array. -/
def octets (width : UInt64) : Checked (Octets width.toNat) := do
  Octets.ofBytes? width.toNat (← take width)

/-- Looks at what lies ahead, then moves the index. -/
def bytes (count : UInt64) : Checked Bytes := do
  room count
  let cursor ← get
  let found ← slice cursor.buffer cursor.index (← plus cursor.index count)
  set { cursor with index := ← plus cursor.index count }
  return found

def array (width : UInt64) : Checked Bytes := do
  return (← octets width).toBytes

/-- The first byte of a slice of one. The slice must not be empty. -/
def byte : Checked UInt8 := do
  (← take 1)[0]?

def port : Checked UInt16 := do
  return UInt16.ofNat (Bytes.ofLittleEndian (← array 2).reverse)

def uint32 : Checked UInt32 := do
  return UInt32.ofNat (Bytes.ofLittleEndian (← array 4))

def int32 : Checked Int32 := do
  return (← uint32).toInt32

def uint64 : Checked UInt64 := do
  return UInt64.ofNat (Bytes.ofLittleEndian (← array 8))

def int64 : Checked Int64 := do
  return (← uint64).toInt64

def skip (count : UInt64) : Checked Unit := do
  let _ ← take count

def position : Checked Nat := do
  return (← get).index.toNat

def isEmpty : Checked Bool := do
  return (← remaining) == 0

/-- Everything from the index on. The index does not move. -/
def rest : Checked Bytes := do
  let cursor ← get
  slice cursor.buffer cursor.index (length cursor.buffer)

/-- The bytes passed since `start`, which must not be behind the index. -/
def sliceFrom (start : UInt64) : Checked Bytes := do
  let cursor ← get
  slice cursor.buffer start cursor.index

/-- The value at the front of a byte string and the number of bytes it takes. The bytes behind the
first are counted before it is known whether the count will be told. -/
def decode (data : Bytes) : Checked (UInt64 × UInt64) :=
  match data.head? with
  | none => throw (.underrun 1 0)
  | some first =>
    match VarInt.bodyWidth? first with
    | none => return (first.toUInt64, 1)
    | some width => do
      let stop ← plus 1 (UInt64.ofNat width)
      let left ← minus (length data) 1
      match slice data 1 stop with
      | none => throw (.underrun width left.toNat)
      | some body =>
        let value := UInt64.ofNat (Bytes.ofLittleEndian (← copied (UInt64.ofNat width) body))
        if UInt64.ofNat (VarInt.size value) = stop then return (value, stop)
        else throw (.violation (.overlongVarInt value stop.toNat))

/-- Decodes at the front of what is left and moves the index by the bytes that were used. -/
def varInt : Checked UInt64 := do
  let cursor ← get
  let (value, used) ← decode (← rest)
  set { cursor with index := ← plus cursor.index used }
  return value

/-- Judges a count by the bytes that are left. -/
def judge (minSize : UInt64) (what : String) (value : UInt64) : Checked Nat := do
  let most ← quotient (← remaining) (max minSize 1)
  if most < value then throw (.violation (.excessiveCount what value (← remaining).toNat))
  else return value.toNat

def count (minSize : UInt64) (what : String) : Checked Nat := do
  judge minSize what (← varInt)

def countedBytes : Checked Bytes := do
  bytes (← varInt)

def skipCounted : Checked Unit := do
  let _ ← countedBytes

def countedText : Checked String := do
  return Text.Utf8.decodeLossy (← countedBytes)

/-! ## Outcomes -/

theorem outcome_pure (a : α) (cursor : Cursor) :
    (pure a : Checked α).outcome cursor = some (.ok a, cursor) := rfl

theorem outcome_throw (e : CodecError) (cursor : Cursor) :
    (throw e : Checked α).outcome cursor = some (.error e, cursor) := rfl

theorem outcome_get (cursor : Cursor) :
    (get : Checked Cursor).outcome cursor = some (.ok cursor, cursor) := rfl

theorem outcome_set (cursor cursor' : Cursor) :
    (set cursor' : Checked PUnit).outcome cursor = some (.ok ⟨⟩, cursor') := rfl

theorem outcome_lift (found : Option α) (cursor : Cursor) :
    (liftM found : Checked α).outcome cursor = found.map fun a ↦ (.ok a, cursor) := by
  cases found <;> rfl

/-- The second step starts where the first one left the cursor. An error or a step out of range ends
the run. -/
theorem outcome_bind (steps : Checked α) (next : α → Checked β) (cursor : Cursor) :
    (steps >>= next).outcome cursor =
      match steps.outcome cursor with
      | some (.ok a, cursor') => (next a).outcome cursor'
      | some (.error e, cursor') => some (.error e, cursor')
      | none => none := by
  unfold outcome
  rw [ExceptT.run_bind, StateT.run_bind]
  rcases steps.run.run cursor with _ | ⟨_ | _, cursor'⟩ <;> rfl

/-! ## In range -/

section

variable {a b start stop : Nat} {bytes : Bytes}

/-- A sum below `2 ^ 64` is in range, and it is the sum of natural numbers. -/
theorem plus_ofNat (h : a + b < 2 ^ 64) :
    plus (UInt64.ofNat a) (UInt64.ofNat b) = some (UInt64.ofNat (a + b)) := by
  have ha : a < 2 ^ 64 := by omega
  have hb : b < 2 ^ 64 := by omega
  rw [plus, UInt64.toNat_ofNat_of_lt' ha, UInt64.toNat_ofNat_of_lt' hb, if_pos h,
    UInt64.ofNat_add]

/-- A difference that is not negative is in range, and it is the difference of natural numbers. -/
theorem minus_ofNat (hle : b ≤ a) (ha : a < 2 ^ 64) :
    minus (UInt64.ofNat a) (UInt64.ofNat b) = some (UInt64.ofNat (a - b)) := by
  have hb : b < 2 ^ 64 := hle.trans_lt ha
  rw [minus, if_pos ((UInt64.ofNat_le_iff_le hb ha).2 hle), UInt64.ofNat_sub hle]

/-- A slice with its ends in order and inside the bytes is in range. -/
theorem slice_ofNat (hstart : start ≤ stop) (hstop : stop ≤ bytes.length)
    (hsize : Read.Countable bytes) :
    slice bytes (UInt64.ofNat start) (UInt64.ofNat stop) = some (bytes.extract start stop) := by
  have hlt : stop < 2 ^ 64 := hstop.trans_lt hsize
  have hlt' : start < 2 ^ 64 := hstart.trans_lt hlt
  have hrange : UInt64.ofNat start ≤ UInt64.ofNat stop := (UInt64.ofNat_le_iff_le hlt' hlt).2 hstart
  unfold slice
  rw [UInt64.toNat_ofNat_of_lt' hlt, UInt64.toNat_ofNat_of_lt' hlt', if_pos ⟨hrange, hstop⟩]

end

end Checked

/-! ## The cursor of a reader -/

namespace Reader

variable {reader : Reader} {count start : Nat}

/-- The cursor at the reader's position. -/
def cursor (reader : Reader) : Cursor :=
  ⟨reader.buffer, UInt64.ofNat reader.position⟩

/-- An advance within the buffer moves the index by its count. -/
theorem cursor_advance (h : count ≤ reader.remaining) :
    (reader.advance count).cursor = ⟨reader.buffer, UInt64.ofNat (reader.position + count)⟩ := by
  have hposition : (reader.advance count).position = reader.position + count := by
    simp only [advance, List.length_take_of_le h]
  rw [cursor, buffer_advance, hposition]

/-- What lies from the reader's position on is what it has ahead. -/
theorem extract_position (count : Nat) (reader : Reader) :
    reader.buffer.extract reader.position (reader.position + count) = reader.ahead.take count := by
  have hdrop : reader.buffer.drop reader.position = reader.ahead := by
    rw [buffer, List.drop_left' (by rw [List.length_reverse, reader.position_eq])]
  rw [List.extract_eq_take_drop, hdrop, Nat.add_sub_cancel_left]

/-- What lies before the reader's position is what it has passed. -/
theorem extract_sliceFrom (h : start ≤ reader.position) :
    reader.buffer.extract start reader.position = reader.sliceFrom start := by
  have hlength : reader.passed.reverse.length = reader.position := by
    rw [List.length_reverse, reader.position_eq]
  rw [List.extract_eq_take_drop, buffer, List.drop_append_of_le_length (hlength ▸ h),
    List.take_left' (by rw [List.length_drop, hlength]), List.drop_reverse, ← reader.position_eq,
    sliceFrom]

end Reader

/-! ## Reads by index -/

namespace Checked

variable {α β : Type} {reader : Reader}

/-- On buffers with lengths of 64 bits nothing is out of range in the steps. They answer or fail as
the read does, and leave the index where the read leaves the cursor. -/
def Follows (steps : Checked α) (read : Read α) : Prop :=
  ∀ reader : Reader, Read.Countable reader.buffer →
    steps.outcome reader.cursor = some (read.answer reader, (read.after reader).cursor)

section

variable (hsize : Read.Countable reader.buffer)
include hsize

theorem toNat_remaining : (UInt64.ofNat reader.remaining).toNat = reader.remaining := by
  have hlt : reader.remaining < 2 ^ 64 :=
    (Nat.le_add_left _ _).trans_lt (reader.length_buffer.symm.trans_lt hsize)
  exact UInt64.toNat_ofNat_of_lt' hlt

/-- The index is never behind the buffer, so the number of bytes left is in range. -/
theorem outcome_remaining :
    remaining.outcome reader.cursor =
      some (.ok (UInt64.ofNat reader.remaining), reader.cursor) := by
  have hlength := reader.length_buffer
  have hminus : minus (length reader.buffer) (UInt64.ofNat reader.position) =
      some (UInt64.ofNat reader.remaining) := by
    rw [length, minus_ofNat (by omega) hsize, hlength, Nat.add_sub_cancel_left]
  simp only [remaining, outcome_bind, outcome_get, outcome_lift]
  rw [Reader.cursor, hminus]
  rfl

/-- The index can be moved over bytes that are there. -/
theorem plus_position {count : UInt64} (h : count.toNat ≤ reader.remaining) :
    plus (UInt64.ofNat reader.position) count =
      some (UInt64.ofNat (reader.position + count.toNat)) := by
  have hstop : reader.position + count.toNat ≤ reader.buffer.length := by
    rw [reader.length_buffer]
    omega
  have hplus := plus_ofNat (hstop.trans_lt hsize)
  rwa [UInt64.ofNat_toNat] at hplus

/-- Bytes that are there can be sliced off from the index on. -/
theorem slice_position {count : Nat} (h : count ≤ reader.remaining) :
    slice reader.buffer (UInt64.ofNat reader.position) (UInt64.ofNat (reader.position + count)) =
      some (reader.ahead.take count) := by
  have hstop : reader.position + count ≤ reader.buffer.length := by
    rw [reader.length_buffer]
    omega
  rw [slice_ofNat (Nat.le_add_right _ _) hstop hsize, Reader.extract_position]

/-- Room is asked for before anything moves: where it is missing, the cursor stays and the error
counts the bytes. -/
theorem outcome_room (count : UInt64) :
    (room count).outcome reader.cursor =
      if count.toNat ≤ reader.remaining then some (.ok (), reader.cursor)
      else some (.error (.underrun count.toNat reader.remaining), reader.cursor) := by
  have hshort : UInt64.ofNat reader.remaining < count ↔ ¬count.toNat ≤ reader.remaining := by
    rw [UInt64.lt_iff_toNat_lt, toNat_remaining hsize, Nat.not_le]
  simp only [room, outcome_bind, outcome_remaining hsize, hshort, toNat_remaining hsize]
  split_ifs <;> rfl

/-- A take passes the bytes and answers with them, or it fails and leaves the cursor. -/
theorem outcome_take (count : UInt64) :
    (take count).outcome reader.cursor =
      if count.toNat ≤ reader.remaining then
        some (.ok (reader.ahead.take count.toNat), (reader.advance count.toNat).cursor)
      else some (.error (.underrun count.toNat reader.remaining), reader.cursor) := by
  simp only [take, outcome_bind, outcome_room hsize]
  split_ifs with h
  · simp only [outcome_get, outcome_lift, outcome_set, Reader.cursor_advance h]
    simp only [Reader.cursor, plus_position hsize h, slice_position hsize h, Option.map_some]
  · rfl

/-- Where there is room the slice is in range, so it does not count whether the index moves first.
-/
theorem outcome_bytes (count : UInt64) :
    (bytes count).outcome reader.cursor = (take count).outcome reader.cursor := by
  simp only [bytes, take, outcome_bind, outcome_room hsize]
  split_ifs with h
  · simp only [outcome_get, outcome_lift, outcome_set, outcome_pure]
    simp only [Reader.cursor, plus_position hsize h, slice_position hsize h, Option.map_some]
  · rfl

theorem toNat_position : (UInt64.ofNat reader.position).toNat = reader.position := by
  have hlt : reader.position < 2 ^ 64 :=
    (Nat.le_add_right _ _).trans_lt (reader.length_buffer.symm.trans_lt hsize)
  exact UInt64.toNat_ofNat_of_lt' hlt

/-- A slice that begins behind the cursor is out of range, and no other is. -/
theorem outcome_sliceFrom (start : UInt64) :
    (sliceFrom start).outcome reader.cursor =
      if start.toNat ≤ reader.position then
        some (.ok (reader.sliceFrom start.toNat), reader.cursor)
      else none := by
  have hinside : reader.position ≤ reader.buffer.length := by
    rw [reader.length_buffer]
    exact Nat.le_add_right _ _
  have hslice : slice reader.buffer start (UInt64.ofNat reader.position) =
      if start.toNat ≤ reader.position then some (reader.sliceFrom start.toNat) else none := by
    simp only [slice, UInt64.le_iff_toNat_le, toNat_position hsize, hinside, and_true]
    split_ifs with h
    · rw [Reader.extract_sliceFrom h]
    · rfl
  simp only [sliceFrom, outcome_bind, outcome_get, outcome_lift]
  simp only [Reader.cursor, hslice]
  split_ifs <;> rfl

/-- The slice up to the end of the buffer is in range from any position. -/
theorem outcome_rest : rest.outcome reader.cursor = some (.ok reader.ahead, reader.cursor) := by
  have hslice := slice_position hsize (Nat.le_refl reader.remaining)
  rw [← reader.length_buffer, Reader.remaining, List.take_length] at hslice
  simp only [rest, outcome_bind, outcome_get, outcome_lift]
  simp only [Reader.cursor, length, hslice, Option.map_some]

end

/-! ### Lengths in the buffer -/

section

variable {width : Nat} {body : Bytes}

/-- At most eight bytes fit into eight zeros, and the zeros behind them stay. -/
theorem copied_eq (hbody : body.length = width) (hwidth : width ≤ 8) :
    copied (UInt64.ofNat width) body = some (body ++ List.replicate (8 - width) 0) := by
  have hwidth' : (UInt64.ofNat width).toNat = width :=
    UInt64.toNat_ofNat_of_lt' (hwidth.trans_lt (by decide))
  have hplace : (zeros.extract 0 width).length = body.length := by
    simpa [zeros, hbody] using hwidth
  have hslice : slice zeros 0 (UInt64.ofNat width) = some (zeros.extract 0 width) :=
    slice_ofNat (Nat.zero_le _) (by simpa [zeros] using hwidth) (by simp [Read.Countable, zeros])
  rw [copied, hslice, hwidth', zeros, List.drop_replicate]
  exact if_pos hplace

/-- The bytes behind a first one, if so many are there. -/
theorem slice_body {first : UInt8} {rest : Bytes} (hwidth : width ≤ 8)
    (hsize : Read.Countable (first :: rest)) :
    slice (first :: rest) 1 (UInt64.ofNat (1 + width)) =
      if width ≤ rest.length then some (rest.take width) else none := by
  have hstop : (UInt64.ofNat (1 + width)).toNat = 1 + width :=
    UInt64.toNat_ofNat_of_lt' (show 1 + width < 2 ^ 64 by omega)
  split_ifs with hroom
  · have hinside : 1 + width ≤ (first :: rest).length := by
      rw [List.length_cons]
      omega
    have hslice := slice_ofNat (Nat.le_add_right 1 width) hinside hsize
    rwa [List.extract_eq_take_drop, Nat.add_sub_cancel_left] at hslice
  · rw [slice, hstop, if_neg (by rw [List.length_cons]; omega)]

/-- Zeros at the high end leave a number as it is. -/
theorem ofLittleEndian_append_replicate (bytes : Bytes) (count : Nat) :
    Bytes.ofLittleEndian (bytes ++ List.replicate count 0) = Bytes.ofLittleEndian bytes := by
  have hzeros : Bytes.ofLittleEndian (List.replicate count 0) = 0 := by
    induction count with
    | zero => rfl
    | succ count ih => simp [List.replicate_succ, Bytes.ofLittleEndian, ih]
  rw [Bytes.ofLittleEndian_append, hzeros, Nat.mul_zero, Nat.add_zero]

/-- The encoded size is compared as a number of 64 bits, which holds every size there is. -/
theorem size_eq_iff (value : UInt64) (hwidth : width ≤ 8) :
    UInt64.ofNat (VarInt.size value) = UInt64.ofNat (1 + width) ↔
      VarInt.size value = 1 + width := by
  have hsize := VarInt.size_le value
  rw [← UInt64.toNat_inj, UInt64.toNat_ofNat_of_lt' (show VarInt.size value < 2 ^ 64 by omega),
    UInt64.toNat_ofNat_of_lt' (show 1 + width < 2 ^ 64 by omega)]

/-- Decoding by checked steps has the same outcome for every byte string: no sum, difference or
slice in it is out of range, and the copy never is. -/
theorem outcome_decode {data : Bytes} (hsize : Read.Countable data) (cursor : Cursor) :
    (decode data).outcome cursor =
      match VarInt.decode data with
      | .ok (value, used) => some (.ok (value, UInt64.ofNat used), cursor)
      | .error e => some (.error e, cursor) := by
  cases data with
  | nil => rfl
  | cons first rest =>
    unfold decode VarInt.decode
    dsimp only [List.head?_cons]
    cases hfirst : VarInt.bodyWidth? first with
    | none => rfl
    | some width =>
      have hwidth : width ≤ 8 := by
        obtain ⟨-, rfl⟩ | ⟨-, rfl⟩ | ⟨-, rfl⟩ := VarInt.bodyWidth?_eq_some hfirst <;> decide
      have hplus : plus 1 (UInt64.ofNat width) = some (UInt64.ofNat (1 + width)) :=
        plus_ofNat (show 1 + width < 2 ^ 64 by omega)
      have hminus : minus (length (first :: rest)) 1 = some (UInt64.ofNat rest.length) :=
        minus_ofNat (Nat.le_add_left 1 _) hsize
      have hleft : (UInt64.ofNat rest.length).toNat = rest.length :=
        UInt64.toNat_ofNat_of_lt' ((Nat.lt_succ_self _).trans hsize)
      have hstop : (UInt64.ofNat (1 + width)).toNat = 1 + width :=
        UInt64.toNat_ofNat_of_lt' (show 1 + width < 2 ^ 64 by omega)
      have hbody : (rest.take width).length = width ↔ width ≤ rest.length := by
        rw [List.length_take]
        omega
      simp only [outcome_bind, outcome_lift, hplus, hminus, slice_body hwidth hsize, hbody,
        Option.map_some]
      split_ifs with hroom hshort
      · simp only [outcome_bind, outcome_lift, copied_eq (hbody.2 hroom) hwidth, Option.map_some,
          ofLittleEndian_append_replicate, if_pos ((size_eq_iff _ hwidth).2 hshort)]
        rfl
      · simp only [outcome_bind, outcome_lift, copied_eq (hbody.2 hroom) hwidth, Option.map_some,
          ofLittleEndian_append_replicate, if_neg (mt (size_eq_iff _ hwidth).1 hshort), hstop]
        rfl
      · simp only [outcome_throw, hleft]

end

/-! ### Each read -/

namespace Follows

theorem pure (a : α) : Follows (pure a) (pure a) :=
  fun _ _ ↦ rfl

/-- A run that follows a read can go on with one that does: a read that moves forward leaves the
buffer as it is, so lengths stay below `2 ^ 64`. -/
theorem bind {steps : Checked α} {read : Read α} {next : α → Checked β} {next' : α → Read β}
    (h : Follows steps read) (hforward : read.Forward) (hnext : ∀ a, Follows (next a) (next' a)) :
    Follows (steps >>= next) (read >>= next') := by
  intro reader hsize
  have hbuffer := hforward.buffer_after reader
  rw [outcome_bind, h reader hsize, Access.answer, Access.answer, Access.after_bind,
    Access.bind_apply]
  unfold Access.after at hbuffer ⊢
  cases hread : read reader with
  | error e middle => rfl
  | ok a middle =>
    rw [hread] at hbuffer
    exact hnext a middle (hbuffer.symm ▸ hsize)

/-- To map the answer takes no step. -/
theorem answer {steps : Checked α} {read : Read α} (h : Follows steps read)
    (hforward : read.Forward) (f : α → β) :
    Follows (do return f (← steps)) (do return f (← read)) :=
  h.bind hforward fun a ↦ pure (f a)

/-- A take follows the read of as many bytes. -/
theorem take (count : UInt64) : Follows (take count) (Read.bytes count.toNat) := by
  intro reader hsize
  rw [outcome_take hsize, Access.answer, Access.after, Read.bytes_apply]
  split_ifs <;> rfl

theorem bytes (count : UInt64) : Follows (bytes count) (Read.bytes count.toNat) := by
  intro reader hsize
  rw [outcome_bytes hsize]
  exact take count reader hsize

/-- The slice that is made into an array has the array's length. -/
theorem octets (width : UInt64) : Follows (octets width) (Read.take width.toNat) := by
  intro reader hsize
  simp only [Checked.octets, outcome_bind, outcome_take hsize]
  rw [Access.answer, Access.after, Read.take_apply]
  split_ifs with h
  · have hlength : (reader.ahead.take width.toNat).length = width.toNat := List.length_take_of_le h
    simp only [outcome_lift, Octets.ofBytes?, dif_pos hlength, Option.map_some]
  · rfl

theorem array (width : UInt64) : Follows (array width) (Read.bytes width.toNat) :=
  (octets width).answer (.take _) Octets.toBytes

/-- A slice of one byte has a first byte. -/
theorem byte : Follows byte Read.byte := by
  intro reader hsize
  have hone : (1 : UInt64).toNat = 1 := rfl
  simp only [Checked.byte, outcome_bind, outcome_take hsize, hone]
  rw [Access.answer, Access.after, Read.byte, Access.bind_apply, Read.bytes_apply]
  split_ifs with h
  · obtain ⟨first, others, hahead⟩ := List.exists_cons_of_length_pos h
    simp [hahead, outcome_lift, Access.pure_apply, Bytes.ofLittleEndian]
  · rfl

theorem port : Follows port Read.port :=
  (array 2).answer (.bytes _) fun found ↦ UInt16.ofNat (Bytes.ofLittleEndian found.reverse)

theorem uint32 : Follows uint32 Read.uint32 :=
  (array 4).answer (.bytes _) fun found ↦ UInt32.ofNat (Bytes.ofLittleEndian found)

theorem int32 : Follows int32 Read.int32 :=
  uint32.answer ((Read.Forward.bytes 4).answer _) UInt32.toInt32

theorem uint64 : Follows uint64 Read.uint64 :=
  (array 8).answer (.bytes _) fun found ↦ UInt64.ofNat (Bytes.ofLittleEndian found)

theorem int64 : Follows int64 Read.int64 :=
  uint64.answer ((Read.Forward.bytes 8).answer _) UInt64.toInt64

/-- To drop the answer takes no step. -/
theorem discard {steps : Checked α} {read : Read α} (h : Follows steps read) :
    Follows (do let _ ← steps) (discard read) := by
  intro reader hsize
  rw [outcome_bind, h reader hsize, Access.answer, Access.answer, Access.after, Access.after,
    Access.discard_apply]
  cases read reader <;> rfl

theorem skip (count : UInt64) : Follows (skip count) (Read.skip count.toNat) := by
  intro reader hsize
  simp only [Checked.skip, outcome_bind, outcome_take hsize]
  rw [Access.answer, Access.after, Read.skip, Access.discard_apply, Read.take_apply]
  split_ifs <;> rfl

/-- The bytes used for the number are there, so the index moves past them within the buffer. -/
theorem varInt : Follows varInt Read.varInt := by
  intro reader hsize
  have hahead : Read.Countable reader.ahead :=
    (Nat.le_add_left _ _).trans_lt (reader.length_buffer.symm.trans_lt hsize)
  rw [Access.answer, Access.after, Read.varInt]
  simp only [Checked.varInt, outcome_bind, outcome_get, outcome_rest hsize, outcome_decode hahead]
  cases hdecode : VarInt.decode reader.ahead with
  | error e => rfl
  | ok found =>
    obtain ⟨value, used⟩ := found
    obtain ⟨hfront, hused⟩ := VarInt.decode_eq_ok_iff.1 hdecode
    have hroom : used ≤ reader.remaining := by
      rw [hused, ← VarInt.length_encode]
      exact hfront.length_le
    have hused' : (UInt64.ofNat used).toNat = used := by
      have := VarInt.size_le value
      exact UInt64.toNat_ofNat_of_lt' (show used < 2 ^ 64 by omega)
    have hplus := plus_position hsize (hused'.symm ▸ hroom)
    rw [hused'] at hplus
    simp only [outcome_lift, outcome_set, outcome_pure]
    rw [Reader.cursor_advance hroom, Reader.cursor, hplus]
    rfl

/-- The quotient is not below the value just if the product is not above what is left. -/
theorem judge (minSize : UInt64) (what : String) (value : UInt64) :
    Follows (judge minSize what value) (Read.judge minSize.toNat what value) := by
  intro reader hsize
  have hpos : 0 < max minSize.toNat 1 := by omega
  have hmax : (max minSize 1).toNat = max minSize.toNat 1 := UInt64.toNat_max minSize 1
  have hne : max minSize 1 ≠ 0 := by
    intro h
    rw [h] at hmax
    exact hpos.ne hmax
  have hmost : UInt64.ofNat reader.remaining / max minSize 1 < value ↔
      ¬reader.ahead.holds (value.toNat * max minSize.toNat 1) = true := by
    rw [UInt64.lt_iff_toNat_lt, UInt64.toNat_div, toNat_remaining hsize, hmax, Bytes.holds_iff,
      ← Nat.le_div_iff_mul_le hpos, Nat.not_le]
    rfl
  simp only [Checked.judge, outcome_bind, outcome_remaining hsize, outcome_lift, quotient,
    if_neg hne, Option.map_some, hmost]
  rw [Access.answer, Access.after, Read.judge_apply]
  split_ifs with hholds
  · rfl
  · simp only [outcome_bind, outcome_remaining hsize, outcome_throw, toNat_remaining hsize]

theorem count (minSize : UInt64) (what : String) :
    Follows (count minSize what) (Read.count minSize.toNat what) := by
  rw [Read.count_eq]
  exact varInt.bind .varInt (judge minSize what)

/-- The length found in the buffer is followed like one that was given. -/
theorem countedBytes : Follows countedBytes Read.countedBytes :=
  varInt.bind .varInt bytes

theorem skipCounted : Follows skipCounted Read.skipCounted :=
  countedBytes.discard

theorem countedText : Follows countedText Read.countedText :=
  countedBytes.answer .countedBytes Text.Utf8.decodeLossy

theorem position : Follows position (do return (← get).position) := by
  intro reader hsize
  simp only [Checked.position, outcome_bind, outcome_get, outcome_pure]
  simp only [Reader.cursor, toNat_position hsize]
  rfl

theorem remaining : Follows (do return (← remaining).toNat) (do return (← get).remaining) := by
  intro reader hsize
  simp only [outcome_bind, outcome_remaining hsize, outcome_pure, toNat_remaining hsize]
  rfl

/-- Nothing remains just if the list of bytes ahead is empty. -/
theorem isEmpty : Follows isEmpty (do return (← get).ahead.isEmpty) := by
  intro reader hsize
  have hempty : (UInt64.ofNat reader.remaining == 0) = reader.ahead.isEmpty := by
    rw [Bool.eq_iff_iff, beq_iff_eq, List.isEmpty_iff, ← List.length_eq_zero_iff,
      ← UInt64.toNat_inj, toNat_remaining hsize]
    rfl
  simp only [Checked.isEmpty, outcome_bind, outcome_remaining hsize, outcome_pure, hempty]
  rfl

theorem rest : Follows rest (do return (← get).ahead) := by
  intro reader hsize
  rw [outcome_rest hsize]
  rfl

end Follows

end Checked

end CoinWire
