import Mathlib
import CoinWire.Proofs.Reading

/-!
# Where a read stops

Whatever its outcome, a read leaves the cursor where it was or further on. A read of one step that
fails has not moved. A read of two steps, a length and what the length announces, fails before the
length or just behind it. What can lie between the steps is a complete length and nothing else.
-/

namespace CoinWire

namespace Read

variable {α β : Type} {reader after : Reader} {e : CodecError}

/-- The second step of `count`, which judges a value by the bytes that are left. -/
def judge (minSize : Nat) (what : String) (value : UInt64) : Read Nat := do
  let reader ← get
  if reader.ahead.holds (value.toNat * max minSize 1) then return value.toNat
  else throw (.violation (.excessiveCount what value reader.remaining))

theorem count_eq (minSize : Nat) (what : String) :
    count minSize what = varInt >>= judge minSize what := rfl

/-- A count is refused, and nothing is read, if items of the least size would not fit into what is
left. -/
theorem judge_apply (minSize : Nat) (what : String) (value : UInt64) (reader : Reader) :
    judge minSize what value reader =
      if reader.ahead.holds (value.toNat * max minSize 1) then .ok value.toNat reader
      else .error (.violation (.excessiveCount what value reader.remaining)) reader := by
  unfold judge
  rw [Access.bind_apply]
  change (if reader.ahead.holds (value.toNat * max minSize 1) then pure value.toNat
    else throw (.violation (.excessiveCount what value reader.remaining)) : Read Nat) reader = _
  split_ifs <;> rfl

/-! ## Moving forward -/

/-- Whether the read answers or fails, the cursor has moved over some of the bytes ahead of it. -/
def Forward (read : Read α) : Prop :=
  ∀ reader, ∃ count, read.after reader = reader.advance count

namespace Forward

/-- A read that moves forward passes bytes on and neither adds nor drops any. -/
theorem buffer_after {read : Read α} (h : Forward read) (reader : Reader) :
    (read.after reader).buffer = reader.buffer := by
  obtain ⟨count, hafter⟩ := h reader
  rw [hafter, Reader.buffer_advance]

/-- A read that moves forward does not come back, whether it answers or fails. -/
theorem position_le_after {read : Read α} (h : Forward read) (reader : Reader) :
    reader.position ≤ (read.after reader).position := by
  obtain ⟨count, hafter⟩ := h reader
  rw [hafter]
  exact Reader.position_le_advance count reader

theorem pure (a : α) : Forward (pure a) :=
  fun _ ↦ ⟨0, rfl⟩

theorem get : Forward (MonadState.get : Read Reader) :=
  fun _ ↦ ⟨0, rfl⟩

theorem bind {read : Read α} {next : α → Read β} (h : Forward read)
    (hnext : ∀ a, Forward (next a)) : Forward (read >>= next) := by
  intro reader
  obtain ⟨count, hafter⟩ := h reader
  rw [Access.after_bind]
  cases hread : read reader with
  | error e middle =>
    rw [Access.after_eq_error hread] at hafter
    exact ⟨count, hafter⟩
  | ok a middle =>
    rw [Access.after_eq_ok hread] at hafter
    subst hafter
    obtain ⟨count', hafter'⟩ := hnext a (reader.advance count)
    exact ⟨count + count', by rw [← Reader.advance_advance, ← hafter']⟩

theorem answer {read : Read α} (h : Forward read) (f : α → β) :
    Forward (do return f (← read)) :=
  h.bind fun a ↦ pure (f a)

theorem discard {read : Read α} (h : Forward read) : Forward (discard read) := by
  intro reader
  obtain ⟨count, hafter⟩ := h reader
  exact ⟨count, by rw [← hafter]; exact Access.after_map (fun _ ↦ ()) read reader⟩

/-- A take that fails has not moved. -/
theorem take (count : Nat) : Forward (take count) := by
  intro reader
  rw [Access.after, take_apply]
  split_ifs
  · exact ⟨count, rfl⟩
  · exact ⟨0, rfl⟩

theorem bytes (count : Nat) : Forward (bytes count) :=
  (take count).answer Octets.toBytes

/-- A number moves the cursor by the bytes it takes, and a malformed one does not move it. -/
theorem varInt : Forward varInt := by
  intro reader
  rw [Access.after, Read.varInt]
  cases VarInt.decode reader.ahead with
  | ok found => exact ⟨found.2, rfl⟩
  | error e => exact ⟨0, rfl⟩

theorem judge (minSize : Nat) (what : String) (value : UInt64) :
    Forward (judge minSize what value) := by
  intro reader
  rw [Access.after, judge_apply]
  split_ifs
  · exact ⟨0, rfl⟩
  · exact ⟨0, rfl⟩

theorem count (minSize : Nat) (what : String) : Forward (count minSize what) := by
  rw [count_eq]
  exact varInt.bind (judge minSize what)

theorem countedBytes : Forward countedBytes :=
  varInt.bind fun length ↦ bytes length.toNat

end Forward

/-! ## Failing -/

/-- Wherever the read fails, the reader before it, the error and the reader that it leaves are in
the relation. -/
def OnFailure (read : Read α) (Leaves : Reader → CodecError → Reader → Prop) : Prop :=
  ∀ reader e after, read reader = .error e after → Leaves reader e after

/-- The cursor is where it was. -/
def Stays (reader : Reader) (_ : CodecError) (after : Reader) : Prop :=
  after = reader

/-- The length could not be read and the cursor is where it was, or it was read and the cursor is
just behind it. -/
def StopsAtLength (reader : Reader) (e : CodecError) (after : Reader) : Prop :=
  (varInt reader = .error e reader ∧ after = reader) ∨
    ∃ value, VarInt.encode value <+: reader.ahead ∧ after = reader.advance (VarInt.size value)

namespace OnFailure

variable {Leaves : Reader → CodecError → Reader → Prop}

theorem answer {read : Read α} (h : OnFailure read Leaves) (f : α → β) :
    OnFailure (do return f (← read)) Leaves :=
  fun reader e after hfail ↦ h reader e after (Access.eq_error_of_answer hfail)

theorem discard {read : Read α} (h : OnFailure read Leaves) : OnFailure (discard read) Leaves :=
  fun reader e after hfail ↦ h reader e after (Access.eq_error_of_discard hfail)

theorem get : OnFailure (MonadState.get : Read Reader) Leaves := by
  intro reader e after hfail
  cases hfail

/-- Missing bytes are noticed before any is passed. -/
theorem take (count : Nat) : OnFailure (take count) Stays := by
  intro reader e after hfail
  rw [take_apply] at hfail
  split_ifs at hfail
  injection hfail with _ hafter
  exact hafter.symm

theorem bytes (count : Nat) : OnFailure (bytes count) Stays :=
  (take count).answer Octets.toBytes

/-- A malformed number is noticed before any of its bytes is passed. -/
theorem varInt : OnFailure varInt Stays := by
  intro reader e after hfail
  unfold Read.varInt at hfail
  cases hdecode : VarInt.decode reader.ahead with
  | ok found => rw [hdecode] at hfail; contradiction
  | error e' =>
    rw [hdecode] at hfail
    injection hfail with _ hafter
    exact hafter.symm

/-- A length, and then a read that stays where it fails. -/
theorem varInt_bind {next : UInt64 → Read α} (h : ∀ value, OnFailure (next value) Stays) :
    OnFailure (Read.varInt >>= next) StopsAtLength := by
  intro reader e after hfail
  rw [Access.bind_apply] at hfail
  cases hlength : Read.varInt reader with
  | error e' middle =>
    rw [hlength] at hfail
    injection hfail with he hafter
    subst he hafter
    obtain rfl := varInt reader e' middle hlength
    exact .inl ⟨hlength, rfl⟩
  | ok value middle =>
    rw [hlength] at hfail
    obtain ⟨-, hahead, hmiddle⟩ := accepts_varInt.eq_ok_iff.1 hlength
    rw [VarInt.length_encode] at hmiddle
    exact .inr ⟨value, hahead, (h value middle e after hfail).trans hmiddle⟩

/-- Counted bytes that fail stay in front of the length, or stop behind a length that says too much.
-/
theorem countedBytes : OnFailure countedBytes StopsAtLength :=
  varInt_bind fun length ↦ bytes length.toNat

/-- A count is refused without moving. -/
theorem judge (minSize : Nat) (what : String) (value : UInt64) :
    OnFailure (judge minSize what value) Stays := by
  intro reader e after hfail
  rw [judge_apply] at hfail
  split_ifs at hfail
  injection hfail with _ hafter
  exact hafter.symm

/-- A count that fails stays in front of the number, or stops behind one that says too much. -/
theorem count (minSize : Nat) (what : String) : OnFailure (count minSize what) StopsAtLength := by
  rw [count_eq]
  exact varInt_bind (judge minSize what)

end OnFailure

/-- A count that was read is one that the bytes left can hold. -/
theorem mul_le_remaining_of_count {minSize : Nat} {what : String} {found : Nat}
    (h : count minSize what reader = .ok found after) :
    found * max minSize 1 ≤ after.remaining := by
  rw [count_eq] at h
  obtain ⟨value, middle, -, hjudge⟩ := Access.bind_eq_ok_iff.1 h
  rw [judge_apply] at hjudge
  split_ifs at hjudge with hholds
  injection hjudge with hfound hafter
  subst hfound hafter
  exact (Bytes.holds_iff _ _).1 hholds

end Read

end CoinWire
