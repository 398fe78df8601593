import Mathlib
import CoinWire.Proofs.Exchange
import CoinWire.Proofs.Framing

/-!
# Frames written whole

The payload is made before anything is written, and its size is checked before the first byte of the
frame. So writing a message either appends all of its frame to the output or leaves the output as it
was. It fails for want of a payload format or for a payload past the limit of the network, and for
no other reason. The message may be parsed and cached on the way, also where the frame is refused
afterwards; it equals what it was.
-/

namespace CoinWire

namespace Message

variable {message : Message}

/-- A reachable message of a known kind has a payload. To write it leaves a message that equals this
one and has the same payload. -/
theorem Reachable.exists_payload (h : message.Reachable) (hknown : message.isKnown = true) :
    ∃ payload after, Message.payload message = .ok payload after ∧
      (compare message after).equal = true ∧ Message.payload.answer after = .ok payload := by
  obtain ⟨v, hv⟩ := h.holds hknown
  obtain ⟨after, hpayload, hafter⟩ := hv.payload
  obtain ⟨after', hagain, -⟩ := hafter.payload
  exact ⟨v.wire, after, hpayload, (hv.compare hafter).1.2 rfl, Access.answer_eq_ok hagain⟩

/-- A message of no known kind has no payload, and stays as it is. -/
theorem payload_of_not_known (h : message.isKnown = false) :
    Message.payload message = .error (.unknownCommand message.command) message ∧
      (compare message message).equal = true := by
  cases message with
  | unknown name bytes => exact ⟨rfl, decide_eq_true ⟨rfl, rfl⟩⟩
  | _ => contradiction

end Message

namespace Framer

variable {framer : Framer} {message after : Message} {name : String} {payload frame : Bytes}
  {e : CodecError}

/-- Writing the message fails with this error and leaves `after` of it. No output is touched, and no
buffer that it is encoded to. -/
def Refuses (framer : Framer) (message : Message) (e : CodecError) (after : Message) : Prop :=
  ∀ out, framer.write ⟨message, out⟩ = .error e ⟨after, out⟩ ∧
    framer.encode message out = .error e out

/-- Writing the message appends the frame and nothing else to any output, and to any buffer that it
is encoded to. It leaves `after` of the message. -/
def Appends (framer : Framer) (message : Message) (frame : Bytes) (after : Message) : Prop :=
  ∀ out, framer.write ⟨message, out⟩ = .ok () ⟨after, out ++ frame⟩ ∧
    framer.encode message out = .ok () (out ++ frame)

theorem refuses_of_write
    (h : ∀ out, framer.write ⟨message, out⟩ = .error e ⟨after, out⟩) :
    framer.Refuses message e after := by
  intro out
  refine ⟨h out, ?_⟩
  rw [encode_apply, h]

theorem refuses_of_error (h : Message.payload message = .error e after) :
    framer.Refuses message e after :=
  refuses_of_write (write_of_error h)

/-- The size is checked first of all. -/
theorem writeRaw_of_large (h : framer.params.maxMessageSize.toNat < payload.length)
    (name : String) (out : Bytes) :
    framer.writeRaw name payload out =
      .error (.violation (.messageTooLarge payload.length framer.params.maxMessageSize)) out := by
  unfold writeRaw
  rw [if_pos h]
  rfl

theorem refuses_of_large (h : Message.payload message = .ok payload after)
    (hlarge : framer.params.maxMessageSize.toNat < payload.length) :
    framer.Refuses message
      (.violation (.messageTooLarge payload.length framer.params.maxMessageSize)) after := by
  apply refuses_of_write
  intro out
  rw [write_of_ok h, writeRaw_of_large hlarge]
  rfl

theorem appends_of_writeRaw (h : Message.payload message = .ok payload after)
    (hwrite : ∀ out, framer.writeRaw message.command payload out = .ok () (out ++ frame)) :
    framer.Appends message frame after := by
  intro out
  refine ⟨?_, encode_eq h (hwrite []) out⟩
  rw [write_of_ok h, hwrite]
  rfl

/-- A payload within the limit is appended in a frame of its own length. The header that is read at
the frame, whatever follows it, is the one that was written. -/
theorem exists_appends (h : Message.payload message = .ok payload after)
    (hlimit : payload.length ≤ framer.params.maxMessageSize.toNat) :
    ∃ header, framer.Heads header message.command payload ∧
      (framer.params.magic.toBytes ++ header.wire ++ payload).length =
        framer.overhead + payload.length ∧
      (∀ rest, framer.headerAt (framer.params.magic.toBytes ++ header.wire ++ payload ++ rest) =
        .ok header) ∧
      framer.Appends message (framer.params.magic.toBytes ++ header.wire ++ payload) after := by
  have hcarries := Message.carries_command (Message.of_payload h).2
  obtain ⟨header, hheads, hwrite⟩ := exists_heads hcarries hlimit
  refine ⟨header, hheads, ?_, ?_, appends_of_writeRaw h ?_⟩
  · rw [List.length_append, length_magic_append_wire hheads.announces]
  · intro rest
    rw [List.append_assoc _ payload rest, headerAt_frame hheads.announces]
  · intro out
    rw [hwrite, List.append_assoc, List.append_assoc, List.append_assoc]

/-- A message of no known kind is refused, and so is a payload past the limit. Every other message
is written: magic, a header that announces the payload and keeps the limit, and the payload. The
header is read back from what was appended. In every case the message equals what it was. -/
theorem refuses_or_appends (hmessage : message.Reachable) :
    ∃ after, (Message.compare message after).equal = true ∧
      (message.isKnown = false →
        framer.Refuses message (.unknownCommand message.command) after) ∧
      (message.isKnown = true → ∃ payload, Message.payload.answer message = .ok payload ∧
        Message.payload.answer after = .ok payload ∧
        (framer.params.maxMessageSize.toNat < payload.length →
          framer.Refuses message
            (.violation (.messageTooLarge payload.length framer.params.maxMessageSize)) after) ∧
        (payload.length ≤ framer.params.maxMessageSize.toNat →
          ∃ header, framer.Heads header message.command payload ∧
            (framer.params.magic.toBytes ++ header.wire ++ payload).length =
              framer.overhead + payload.length ∧
            (∀ rest, framer.headerAt
              (framer.params.magic.toBytes ++ header.wire ++ payload ++ rest) = .ok header) ∧
            framer.Appends message (framer.params.magic.toBytes ++ header.wire ++ payload)
              after)) := by
  cases hknown : message.isKnown with
  | false =>
    obtain ⟨hpayload, hequal⟩ := Message.payload_of_not_known hknown
    exact ⟨message, hequal, fun _ ↦ refuses_of_error hpayload, nofun⟩
  | true =>
    obtain ⟨payload, after, hpayload, hequal, hagain⟩ := hmessage.exists_payload hknown
    exact ⟨after, hequal, nofun, fun _ ↦ ⟨payload, Access.answer_eq_ok hpayload, hagain,
      refuses_of_large hpayload, exists_appends hpayload⟩⟩

/-- A transaction of fourteen bytes, not parsed, where the limit is one byte less and where it is
just that. -/
theorem refuses_or_appends_at_limit :
    let framer (limit : UInt32) : Framer :=
      { new { Network.unitTest.params with maxMessageSize := limit } with checksum := true }
    let encoding : Bytes := [1, 0, 0, 0, 7, 0, 0, 0, 0, 0, 0, 0, 0, 0]
    let transaction : Transaction := ⟨some encoding, true, .deferredRetain, none, none⟩
    let message := Message.tx transaction
    message.Reachable ∧
      (∃ after, (framer 13).Refuses message (.violation (.messageTooLarge 14 13)) after) ∧
      ∃ after frame header, (framer 14).Appends message frame after ∧ frame.length = 38 ∧
        (framer 14).headerAt frame = .ok header ∧ header.length.toNat = 14 := by
  intro framer encoding transaction message
  have hitem : (Item.transaction transaction).Reachable :=
    @Item.Reachable.of_make (.transaction encoding .deferredRetain) _ (by cbv)
  have hmessage : message.Reachable := List.forall_mem_singleton.2 hitem
  have hanswer : Message.payload.answer message = .ok encoding := rfl
  refine ⟨hmessage, ?_, ?_⟩
  · obtain ⟨after, -, -, h⟩ := @refuses_or_appends (framer 13) _ hmessage
    obtain ⟨payload, hpayload, -, hlarge, -⟩ := h rfl
    obtain rfl : encoding = payload := Except.ok.inj (hanswer.symm.trans hpayload)
    exact ⟨after, hlarge (by decide)⟩
  · obtain ⟨after, -, -, h⟩ := @refuses_or_appends (framer 14) _ hmessage
    obtain ⟨payload, hpayload, -, -, hfits⟩ := h rfl
    obtain rfl : encoding = payload := Except.ok.inj (hanswer.symm.trans hpayload)
    obtain ⟨header, hheads, hlength, hheader, happends⟩ := hfits (by decide)
    have hread := hheader []
    rw [List.append_nil] at hread
    exact ⟨after, _, header, happends, hlength, hread, hheads.length⟩

end Framer

end CoinWire
