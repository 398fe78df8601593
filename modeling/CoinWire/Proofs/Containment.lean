import Mathlib
import CoinWire.Hash
import CoinWire.Proofs.Indexing

/-!
# The reader stays in its buffer

Any operations on a reader, one after the other. The cursor only moves forward, and what it has
passed and what lies ahead are the buffer at every time. By index nothing is out of range, whatever
lengths the operations are given or find in the buffer. The only condition is that slices of what
was passed begin at or before the cursor.
-/

namespace CoinWire.Reader

open Read

/-! ## Operations -/

inductive Operation where
  | byte
  | port
  | uint32
  | int32
  | uint64
  | int64
  | hash
  | fixed (width : UInt64)
  | bytes (size : UInt64)
  | skip (size : UInt64)
  | varInt
  | count (minSize : UInt64) (what : String)
  | countedBytes
  | countedText
  | skipCounted
  | position
  | remaining
  | isEmpty
  | rest
  | sliceFrom (start : UInt64)

namespace Operation

/-- What the operation answers. -/
def Answer : Operation → Type
  | byte => UInt8
  | port => UInt16
  | uint32 => UInt32
  | int32 => Int32
  | uint64 | varInt => UInt64
  | int64 => Int64
  | hash => Hash
  | fixed width => Octets width.toNat
  | bytes _ | countedBytes | rest | sliceFrom _ => Bytes
  | skip _ | skipCounted => Unit
  | count _ _ | position | remaining => Nat
  | countedText => String
  | isEmpty => Bool

def perform : (operation : Operation) → Read operation.Answer
  | byte => Read.byte
  | port => Read.port
  | uint32 => Read.uint32
  | int32 => Read.int32
  | uint64 => Read.uint64
  | int64 => Read.int64
  | hash => Read.take 32
  | fixed width => Read.take width.toNat
  | bytes size => Read.bytes size.toNat
  | skip size => Read.skip size.toNat
  | varInt => Read.varInt
  | count minSize what => Read.count minSize.toNat what
  | countedBytes => Read.countedBytes
  | countedText => Read.countedText
  | skipCounted => Read.skipCounted
  | position => do return (← get).position
  | remaining => do return (← get).remaining
  | isEmpty => do return (← get).ahead.isEmpty
  | rest => do return (← get).ahead
  | sliceFrom start => do return (← get).sliceFrom start.toNat

/-- The operation by index. -/
def steps : (operation : Operation) → Checked operation.Answer
  | byte => Checked.byte
  | port => Checked.port
  | uint32 => Checked.uint32
  | int32 => Checked.int32
  | uint64 => Checked.uint64
  | int64 => Checked.int64
  | hash => Checked.octets 32
  | fixed width => Checked.octets width
  | bytes size => Checked.bytes size
  | skip size => Checked.skip size
  | varInt => Checked.varInt
  | count minSize what => Checked.count minSize what
  | countedBytes => Checked.countedBytes
  | countedText => Checked.countedText
  | skipCounted => Checked.skipCounted
  | position => Checked.position
  | remaining => do return (← Checked.remaining).toNat
  | isEmpty => Checked.isEmpty
  | rest => Checked.rest
  | sliceFrom start => Checked.sliceFrom start

/-- A slice of what was passed begins at or before the cursor. -/
def Permitted (operation : Operation) (reader : Reader) : Prop :=
  match operation with
  | sliceFrom start => start.toNat ≤ reader.position
  | _ => True

/-- Where the operation leaves the cursor when it fails. -/
def Leaves : Operation → Reader → CodecError → Reader → Prop
  | count _ _ | countedBytes | countedText | skipCounted => StopsAtLength
  | _ => Stays

theorem forward_perform (operation : Operation) : Forward operation.perform := by
  cases operation with
  | byte | port | uint32 | uint64 => exact (Forward.bytes _).answer _
  | int32 | int64 => exact ((Forward.bytes _).answer _).answer _
  | hash | fixed => exact .take _
  | bytes => exact .bytes _
  | skip => exact (Forward.take _).discard
  | varInt => exact .varInt
  | count => exact .count _ _
  | countedBytes => exact .countedBytes
  | countedText => exact Forward.countedBytes.answer _
  | skipCounted => exact Forward.countedBytes.discard
  | position | remaining | isEmpty | rest | sliceFrom => exact Forward.get.answer _

theorem onFailure_perform (operation : Operation) :
    OnFailure operation.perform operation.Leaves := by
  cases operation with
  | byte | port | uint32 | uint64 => exact (OnFailure.bytes _).answer _
  | int32 | int64 => exact ((OnFailure.bytes _).answer _).answer _
  | hash | fixed => exact .take _
  | bytes => exact .bytes _
  | skip => exact (OnFailure.take _).discard
  | varInt => exact .varInt
  | count => exact .count _ _
  | countedBytes => exact .countedBytes
  | countedText => exact OnFailure.countedBytes.answer _
  | skipCounted => exact OnFailure.countedBytes.discard
  | position | remaining | isEmpty | rest | sliceFrom => exact OnFailure.get.answer _

theorem outcome_steps {operation : Operation} {reader : Reader} (hsize : Countable reader.buffer)
    (hpermitted : operation.Permitted reader) :
    operation.steps.outcome reader.cursor =
      some (operation.perform.answer reader, (operation.perform.after reader).cursor) := by
  cases operation with
  | byte => exact Checked.Follows.byte reader hsize
  | port => exact Checked.Follows.port reader hsize
  | uint32 => exact Checked.Follows.uint32 reader hsize
  | int32 => exact Checked.Follows.int32 reader hsize
  | uint64 => exact Checked.Follows.uint64 reader hsize
  | int64 => exact Checked.Follows.int64 reader hsize
  | hash => exact Checked.Follows.octets 32 reader hsize
  | fixed width => exact Checked.Follows.octets width reader hsize
  | bytes size => exact Checked.Follows.bytes size reader hsize
  | skip size => exact Checked.Follows.skip size reader hsize
  | varInt => exact Checked.Follows.varInt reader hsize
  | count minSize what => exact Checked.Follows.count minSize what reader hsize
  | countedBytes => exact Checked.Follows.countedBytes reader hsize
  | countedText => exact Checked.Follows.countedText reader hsize
  | skipCounted => exact Checked.Follows.skipCounted reader hsize
  | position => exact Checked.Follows.position reader hsize
  | remaining => exact Checked.Follows.remaining reader hsize
  | isEmpty => exact Checked.Follows.isEmpty reader hsize
  | rest => exact Checked.Follows.rest reader hsize
  | sliceFrom start =>
    have hstart : start.toNat ≤ reader.position := hpermitted
    exact (Checked.outcome_sliceFrom hsize start).trans (if_pos hstart)

end Operation

/-! ## Runs -/

variable {source : Bytes} {reader : Reader}

/-- The reader after the operations, whether they answered or failed. -/
def run (operations : List Operation) (reader : Reader) : Reader :=
  operations.foldl (fun reader operation ↦ operation.perform.after reader) reader

/-- The cursor after the operations, unless something was out of range in one of them. -/
def runSteps (operations : List Operation) (cursor : Cursor) : Option Cursor :=
  operations.foldlM (fun cursor operation ↦ Prod.snd <$> operation.steps.outcome cursor) cursor

/-- Each operation is permitted when its turn comes. -/
def Permitted : List Operation → Reader → Prop
  | [], _ => True
  | operation :: others, reader =>
    operation.Permitted reader ∧ Permitted others (operation.perform.after reader)

theorem buffer_run (operations : List Operation) (reader : Reader) :
    (run operations reader).buffer = reader.buffer := by
  induction operations generalizing reader with
  | nil => rfl
  | cons operation others ih =>
    calc
      (run others (operation.perform.after reader)).buffer =
          (operation.perform.after reader).buffer := ih _
      _ = reader.buffer := operation.forward_perform.buffer_after reader

theorem runSteps_cursor {operations : List Operation} (hsize : Countable reader.buffer)
    (hpermitted : Permitted operations reader) :
    runSteps operations reader.cursor = some (run operations reader).cursor := by
  induction operations generalizing reader with
  | nil => rfl
  | cons operation others ih =>
    obtain ⟨hfirst, hothers⟩ := hpermitted
    have hbuffer := operation.forward_perform.buffer_after reader
    have hstep := Operation.outcome_steps hsize hfirst
    rw [runSteps, List.foldlM_cons, hstep]
    exact ih (hbuffer.symm ▸ hsize) hothers

/-- Whatever was done to a reader and whatever is done next, the cursor moves forward and stays in
the buffer, which is what the cursor has passed followed by what lies ahead. If the length of the
buffer has 64 bits, nothing is out of range by index, before or now. An operation that fails leaves
the cursor where it was, or just behind a length if it begins with one. A count that is read is one
that the bytes behind it can hold. -/
theorem stays_in_buffer (source : Bytes) (done : List Operation) (next : Operation)
    (hdone : Permitted done (ofBytes source)) (hnext : next.Permitted (run done (ofBytes source))) :
    let reader := run done (ofBytes source)
    let after := next.perform.after reader
    (reader.position ≤ after.position ∧ after.position ≤ source.length) ∧
      after.sliceFrom 0 ++ after.ahead = source ∧
      (Countable source →
        runSteps done ⟨source, 0⟩ = some reader.cursor ∧
          next.steps.outcome reader.cursor = some (next.perform.answer reader, after.cursor)) ∧
      (∀ e, next.perform.answer reader = .error e → next.Leaves reader e after) ∧
      ∀ minSize what found, (Read.count minSize what).answer reader = .ok found →
        found * max minSize 1 ≤ ((Read.count minSize what).after reader).remaining := by
  intro reader after
  have hbuffer : reader.buffer = source := buffer_run done (ofBytes source)
  have hafter : after.buffer = source := (next.forward_perform.buffer_after reader).trans hbuffer
  refine ⟨⟨next.forward_perform.position_le_after reader, ?_⟩, ?_, ?_, ?_, ?_⟩
  · rw [← hafter, length_buffer]
    exact Nat.le_add_right _ _
  · rw [sliceFrom_zero_append_ahead, hafter]
  · intro hsize
    have hrun : runSteps done (ofBytes source).cursor = some reader.cursor :=
      runSteps_cursor hsize hdone
    exact ⟨hrun, Operation.outcome_steps (hbuffer.symm ▸ hsize) hnext⟩
  · intro e hfail
    exact next.onFailure_perform reader e after (Access.eq_error_after hfail)
  · intro minSize what found hfound
    exact mul_le_remaining_of_count (Access.eq_ok_after hfound)

/-- The highest length there is, with one byte behind it. -/
theorem stays_in_buffer_highest_length :
    let source : Bytes := 7 :: List.replicate 9 0xFF ++ [1]
    let done : List Operation := [.byte, .sliceFrom 1]
    let reader := run done (ofBytes source)
    let after := Operation.countedBytes.perform.after reader
    Permitted done (ofBytes source) ∧ Operation.countedBytes.Permitted reader ∧
      Countable source ∧ reader.position = 1 ∧ after.position = 10 ∧
      Operation.countedBytes.steps.outcome reader.cursor =
        some (.error (.underrun (2 ^ 64 - 1) 1), after.cursor) ∧
      StopsAtLength reader (.underrun (2 ^ 64 - 1) 1) after := by
  intro source done reader after
  have hdone : Permitted done (ofBytes source) := ⟨trivial, Nat.le_refl 1, trivial⟩
  have hsize : source.length < 2 ^ 64 := by decide
  have hanswer : Operation.countedBytes.perform.answer reader =
      .error (.underrun (2 ^ 64 - 1) 1) := by rfl
  obtain ⟨-, -, hindex, hleaves, -⟩ := stays_in_buffer source done .countedBytes hdone trivial
  obtain ⟨-, hsteps⟩ := hindex hsize
  exact ⟨hdone, trivial, hsize, rfl, rfl, hanswer ▸ hsteps, hleaves _ hanswer⟩

end CoinWire.Reader
