import Mathlib
import CoinWire.Proofs.NextFrame

/-!
# After an error

A decoder goes on after an error if the frame that caused it is gone. A frame that has arrived is
taken out of the buffer before its payload is looked at, so whatever is wrong with the payload or
its name, the next call finds what follows. A header that announces too much is refused where it
stands: no byte is removed, and every later call fails in the same way. By induction on the length
of the buffer, repeated calls come to a wait for more bytes or to such a header.
-/

namespace CoinWire.Framer

variable (framer : Framer) {buffer rest : Bytes}

/-! ## One call -/

/-- A frame stands at the front whose whole header has arrived and announces too much. -/
def Oversized (buffer : Bytes) : Prop :=
  framer.Opens buffer ∧ framer.overhead ≤ buffer.length ∧ framer.Refused buffer

instance : Decidable (framer.Oversized buffer) :=
  inferInstanceAs (Decidable (_ ∧ _))

theorem decode_of_oversized (h : framer.Oversized buffer) :
    framer.decode buffer = .error (framer.refusal buffer) buffer := by
  obtain ⟨hopens, hoverhead, hrefused⟩ := h
  rw [decode_apply, framer.findMagic?_of_opens hopens]
  exact framer.takeFrame_of_refused hoverhead (framer.headerAt_of_refused hrefused)

/-- An error leaves a shorter buffer, unless the frame at its front announces too much. -/
theorem length_lt_or_oversized {e : CodecError} (h : framer.decode buffer = .error e rest) :
    rest.length < buffer.length ∨ framer.Oversized buffer := by
  rw [decode_apply] at h
  cases hindex : framer.findMagic? buffer with
  | none =>
    rw [hindex] at h
    contradiction
  | some index =>
    have hroom := framer.add_four_le_of_findMagic? hindex
    rw [hindex] at h
    dsimp only at h
    obtain ⟨-, htake⟩ | ⟨e', hoverhead, hheader, htake⟩ | ⟨header, -, -, htake⟩ :=
      framer.takeFrame_cases (buffer.drop index)
    · rw [htake] at h
      contradiction
    · rw [htake] at h
      injection h with _ hrest
      cases index with
      | zero =>
        rw [List.drop_zero] at hoverhead hheader
        have hopens := (framer.findMagic?_eq_some_iff.1 hindex).1
        exact .inr ⟨hopens, hoverhead, (framer.refused_of_headerAt hoverhead hheader).1⟩
      | succ index =>
        rw [← hrest, List.length_drop]
        exact .inl (by omega)
    · have hsize : 20 ≤ framer.frameSize header :=
        framer.twenty_le_overhead.trans (Nat.le_add_right _ _)
      rw [htake, takeWhole] at h
      split at h
      · contradiction
      · injection h with _ hrest
        rw [← hrest, List.length_drop, List.length_drop]
        exact .inl (by omega)

theorem decode_oversized_append (h : framer.Oversized buffer) (more : Bytes) :
    framer.decode (buffer ++ more) = .error (framer.refusal buffer) (buffer ++ more) := by
  obtain ⟨hopens, hoverhead, hrefused⟩ := h
  obtain ⟨hrefused, hrefusal⟩ := framer.refused_append hrefused more
  have hlonger : framer.overhead ≤ (buffer ++ more).length := by
    rw [List.length_append]
    exact hoverhead.trans (Nat.le_add_right _ _)
  have hoversized : framer.Oversized (buffer ++ more) :=
    ⟨hopens.trans (List.prefix_append _ _), hlonger, hrefused⟩
  rw [framer.decode_of_oversized hoversized, hrefusal]

/-! ## Repeated calls -/

/-- What a number of calls come to, one after the other, whether or not they fail. -/
def outcomes (framer : Framer) : Nat → Bytes → List (Except CodecError (Option Message))
  | 0, _ => []
  | count + 1, buffer =>
    framer.decode.answer buffer :: framer.outcomes count (framer.decode.after buffer)

/-- Repeated calls come to a wait for more bytes, or to a frame that announces too much: every other
call leaves less than it found. -/
theorem exists_waiting_or_oversized (buffer : Bytes) :
    ∃ count ≤ buffer.length,
      (∃ rest, framer.decode (framer.decode.after^[count] buffer) = .ok none rest) ∨
        framer.Oversized (framer.decode.after^[count] buffer) := by
  induction hlength : buffer.length using Nat.strongRecOn generalizing buffer with
  | _ length ih =>
    have hshorter (hlt : (framer.decode.after buffer).length < length) :
        ∃ count ≤ length,
          (∃ rest, framer.decode (framer.decode.after^[count] buffer) = .ok none rest) ∨
            framer.Oversized (framer.decode.after^[count] buffer) := by
      obtain ⟨count, hcount, hend⟩ := ih _ hlt (framer.decode.after buffer) rfl
      exact ⟨count + 1, hcount.trans_lt hlt, hend⟩
    cases hdecode : framer.decode buffer with
    | ok found rest =>
      cases found with
      | none => exact ⟨0, Nat.zero_le _, .inl ⟨rest, hdecode⟩⟩
      | some message =>
        apply hshorter
        rw [Access.after, hdecode, ← hlength]
        exact framer.length_lt_of_decode hdecode
    | error e rest =>
      obtain hlt | hoversized := framer.length_lt_or_oversized hdecode
      · apply hshorter
        rwa [Access.after, hdecode, ← hlength]
      · exact ⟨0, Nat.zero_le _, .inr hoversized⟩

/-- Behind a frame that announces too much nothing is found, whatever arrives. -/
theorem outcomes_of_oversized (h : framer.Oversized buffer) (count : Nat) (more : Bytes) :
    framer.outcomes count (buffer ++ more) =
        List.replicate count (.error (framer.refusal buffer)) ∧
      framer.decode.after^[count] (buffer ++ more) = buffer ++ more := by
  have hdecode := framer.decode_oversized_append h more
  have hafter : framer.decode.after (buffer ++ more) = buffer ++ more := by
    rw [Access.after, hdecode]
  refine ⟨?_, Function.iterate_fixed hafter count⟩
  induction count with
  | zero => rfl
  | succ count ih =>
    rw [outcomes, hafter, ih, Access.answer_eq_error hdecode, List.replicate_succ]

end CoinWire.Framer

namespace CoinWire

/-- A frame, good or bad, behind some noise. -/
structure Part where
  noise : Bytes
  header : FrameHeader
  payload : Bytes

namespace Part

def wire (framer : Framer) (part : Part) : Bytes :=
  part.noise ++ (framer.params.magic.toBytes ++ part.header.wire ++ part.payload)

/-- The header announces the payload, and the noise does not hide the frame. -/
structure Fits (framer : Framer) (part : Part) : Prop where
  announces : framer.Announces part.header part.payload
  found : framer.findMagic? (part.wire framer) = some part.noise.length

end Part

namespace Framer

variable {framer : Framer}

theorem decode_part {part : Part} (h : part.Fits framer) (rest : Bytes) :
    framer.decode (part.wire framer ++ rest) =
      match framer.decodePayload part.header part.payload with
      | .ok message => .ok (some message) rest
      | .error e => .error e rest := by
  rw [decode_apply, framer.findMagic?_append h.found rest, Part.wire, List.append_assoc]
  dsimp only
  rw [List.drop_left]
  exact takeFrame_frame h.announces rest

/-- One call for each frame gives what its payload comes to, and nothing is left of it. -/
theorem outcomes_parts {parts : List Part} (h : ∀ part ∈ parts, part.Fits framer) (last : Bytes) :
    framer.outcomes parts.length (parts.flatMap (Part.wire framer) ++ last) =
        parts.map (fun part ↦ some <$> framer.decodePayload part.header part.payload) ∧
      framer.decode.after^[parts.length] (parts.flatMap (Part.wire framer) ++ last) = last := by
  induction parts with
  | nil => exact ⟨rfl, rfl⟩
  | cons part parts ih =>
    obtain ⟨houtcomes, hlast⟩ := ih fun other hother ↦ h other (List.mem_cons_of_mem _ hother)
    have hstep := decode_part (h part List.mem_cons_self)
      (parts.flatMap (Part.wire framer) ++ last)
    rw [List.flatMap_cons, List.append_assoc, List.length_cons, outcomes, List.map_cons,
      Function.iterate_succ_apply, Access.answer, Access.after, hstep]
    cases framer.decodePayload part.header part.payload <;> exact ⟨by rw [← houtcomes]; rfl, hlast⟩

/-- A payload that is too short for its command, and behind it a frame that is not: the second call
finds it. -/
example :
    let framer := new Network.unitTest.params
    let frame (payload : Bytes) : Bytes := [0x0B, 0x11, 0x09, 0x07] ++ [0x70, 0x6F, 0x6E, 0x67] ++
      List.replicate 8 0 ++ Bytes.ofUInt32 (UInt32.ofNat payload.length) ++ payload
    framer.outcomes 3 (frame [1, 2] ++ frame [9, 0, 0, 0, 0, 0, 0, 0]) =
      [.error (.underrun 8 2), .ok (some (.pong 9)), .ok none] := by
  cbv

/-- The one error after which a decoder does not get on is that of a frame that announces too much.
Without it calls come to an end, and every frame that fits is taken out, whatever came before. -/
theorem recovers_unless_oversized (framer : Framer) :
    (∀ buffer e rest, framer.decode buffer = .error e rest →
        (rest.length < buffer.length ↔ ¬framer.Oversized buffer)) ∧
      (∀ buffer, framer.Oversized buffer → ∀ count more,
        framer.outcomes count (buffer ++ more) =
            List.replicate count (.error (framer.refusal buffer)) ∧
          framer.decode.after^[count] (buffer ++ more) = buffer ++ more) ∧
      (∀ buffer, ∃ count ≤ buffer.length,
        (∃ rest, framer.decode (framer.decode.after^[count] buffer) = .ok none rest) ∨
          framer.Oversized (framer.decode.after^[count] buffer)) ∧
      ∀ (parts : List Part) (last : Bytes), (∀ part ∈ parts, part.Fits framer) →
        framer.outcomes parts.length (parts.flatMap (Part.wire framer) ++ last) =
            parts.map (fun part ↦ some <$> framer.decodePayload part.header part.payload) ∧
          framer.decode.after^[parts.length] (parts.flatMap (Part.wire framer) ++ last) = last := by
  refine ⟨?_, fun buffer ↦ framer.outcomes_of_oversized, framer.exists_waiting_or_oversized,
    fun parts last h ↦ outcomes_parts h last⟩
  intro buffer e rest hdecode
  constructor
  · intro hlt hoversized
    rw [framer.decode_of_oversized hoversized] at hdecode
    injection hdecode with _ hrest
    rw [hrest] at hlt
    exact lt_irrefl _ hlt
  · exact (framer.length_lt_or_oversized hdecode).resolve_right

/-- The header of a block of one byte more than a payload may have. -/
def oversizedBlock : Bytes :=
  [0x0B, 0x11, 0x09, 0x07, 0x62, 0x6C, 0x6F, 0x63, 0x6B, 0, 0, 0, 0, 0, 0, 0, 1, 0, 0, 2]

theorem oversized_oversizedBlock : (new Network.unitTest.params).Oversized oversizedBlock := by
  decide +kernel

/-- A header of the command `block` that announces 33554433 bytes, one more than the limit, fails
and leaves the buffer as it was. -/
theorem error_without_progress :
    ¬∀ (framer : Framer) (buffer : Bytes) (e : CodecError) (rest : Bytes),
      framer.decode buffer = .error e rest → rest.length < buffer.length := by
  intro h
  have hdecode := decode_of_oversized _ oversized_oversizedBlock
  exact lt_irrefl _ (h _ _ _ _ hdecode)

end Framer

end CoinWire
