import Mathlib
import CoinWire.Proofs.Fields
import CoinWire.Proofs.Holding.Message
import CoinWire.Proofs.Splitting
import CoinWire.Proofs.Utf8

/-!
# Framed messages

A frame that was written is read as the payload it was written for, whatever follows it. Its header
is accepted because it is one that is written, the name of the command comes back because no zero
and no byte past ASCII is in it, and the checksum is the one of the payload. In a stream of frames
with noise between them every frame is found where it starts, by induction on the frames, so the
messages come out in order however the stream is cut.
-/

namespace CoinWire

open Read

/-! ## Headers -/

namespace FrameHeader

theorem read_eq (limit : UInt32) (withChecksum : Bool) :
    FrameHeader.read limit withChecksum = (do
      let command ← take 12
      let length ← uint32
      if length ≤ limit then do
        let checksum ← present withChecksum (take 4)
        return ⟨command, length, checksum⟩
      else throw (.violation (.messageTooLarge length.toNat limit))) := by
  unfold FrameHeader.read
  congr 1
  funext command
  congr 1
  funext length
  by_cases hlimit : length ≤ limit
  · rw [if_pos hlimit, if_neg (UInt32.not_lt.2 hlimit)]
    cases withChecksum <;> rfl
  · rw [if_neg hlimit, if_pos (UInt32.not_le.1 hlimit)]
    rfl

theorem accepts_read (limit : UInt32) (withChecksum : Bool) :
    Accepts (FrameHeader.read limit withChecksum) id
      (fun header ↦ header.length ≤ limit ∧ header.checksum.isSome = withChecksum) wire := by
  have h := (accepts_take 12).bind fun command ↦ accepts_uint32.bind fun length ↦
    ((accepts_present (accepts_take 4) withChecksum).bind fun checksum ↦
      Accepts.pure (FrameHeader.mk command length checksum)).guard (p := length ≤ limit)
      (.violation (.messageTooLarge length.toNat limit))
  rw [read_eq]
  apply h.reindex fun header ↦ (header.command, header.length, header.checksum, ())
  · intro header
    rfl
  · intro header
    simp
  · intro header _
    simp [wire]
  · rintro ⟨command, length, checksum, _⟩ _
    exact ⟨⟨command, length, checksum⟩, rfl⟩

theorem length_wire (header : FrameHeader) : header.wire.length = header.encodedLength := by
  unfold wire encodedLength
  cases header.checksum with
  | none => simp [header.command.length_toBytes]
  | some checksum => simp [header.command.length_toBytes, checksum.length_toBytes]

/-- A name that a header can carry: at most twelve bytes of ASCII, none of them zero. -/
def Carries (name : String) : Prop :=
  ((Text.Utf8.encode name).length ≤ 12 ∧ (Text.Utf8.encode name).all (· < 0x80)) ∧
    0 ∉ Text.Utf8.encode name

instance (name : String) : Decidable (Carries name) :=
  inferInstanceAs (Decidable (_ ∧ _))

theorem exists_padded_iff {name : String} :
    (∃ command, padded? name = some command) ↔
      (Text.Utf8.encode name).length ≤ 12 ∧ (Text.Utf8.encode name).all (· < 0x80) := by
  unfold padded?
  dsimp only
  split_ifs with hfits
  · exact iff_of_true ⟨_, rfl⟩ hfits
  · refine iff_of_false ?_ hfits
    rintro ⟨command, hsome⟩
    contradiction

/-- Of a name that was padded, what is before its first zero comes back. -/
theorem commandName_of_padded {name : String} {command : Octets 12}
    (h : padded? name = some command) {header : FrameHeader} (hcommand : header.command = command) :
    header.commandName = .ok (Text.Utf8.upToZero name) := by
  have hbytes : command.toBytes = Text.Utf8.encode name ++
      List.replicate (12 - (Text.Utf8.encode name).length) 0 := by
    unfold padded? at h
    dsimp only at h
    rw [dif_pos (exists_padded_iff.1 ⟨command, h⟩)] at h
    rw [← Option.some.inj h]
  have hfront : header.command.toBytes.takeWhile (· != 0) =
      Text.Utf8.encode (Text.Utf8.upToZero name) := by
    rw [hcommand, hbytes, ← Text.Utf8.takeWhile_encode, List.takeWhile_append]
    split_ifs with hall
    · rw [List.takeWhile_replicate, (List.takeWhile_prefix _).eq_of_length hall]
      simp
    · rfl
  rw [commandName, hfront, Text.Utf8.decode_eq_ok_iff.2 rfl]

theorem Carries.upToZero_eq {name : String} (h : Carries name) : Text.Utf8.upToZero name = name :=
  Text.Utf8.upToZero_eq_self_iff.2 (mt Text.Utf8.zero_mem_encode_iff.2 h.2)

theorem verifies_of_checksum {header : FrameHeader} {payload : Bytes}
    (h : ∀ sum ∈ header.checksum, sum = CoinWire.checksum payload) :
    header.verifies payload = true := by
  rw [verifies, Option.all_eq_true]
  intro sum hsum
  rw [h sum hsum]
  exact beq_self_eq_true _

end FrameHeader

theorem PayloadParser.carries_of_mem_defaults :
    ∀ entry ∈ defaults, FrameHeader.Carries entry.1 := by
  have h : ∀ name ∈ defaults.map Prod.fst, FrameHeader.Carries name := by
    decide +kernel
  exact fun entry hentry ↦ h entry.1 (List.mem_map_of_mem hentry)

theorem Message.command_mem_defaults {message : Message} (h : message.isKnown = true) :
    message.command ∈ PayloadParser.defaults.map Prod.fst := by
  cases message with
  | unknown name payload => contradiction
  | _ => simp [command, PayloadParser.defaults, reads]

/-- The names of the commands that are understood can be carried. -/
theorem Message.carries_command {message : Message} (h : message.isKnown = true) :
    FrameHeader.Carries message.command := by
  obtain ⟨entry, hentry, hname⟩ := List.mem_map.1 (Message.command_mem_defaults h)
  exact hname ▸ PayloadParser.carries_of_mem_defaults entry hentry

/-- What has a payload is known, and to write it leaves a message of the same command. -/
theorem Message.of_payload {message after : Message} {payload : Bytes}
    (h : Message.payload message = .ok payload after) :
    after.command = message.command ∧ message.isKnown = true := by
  cases message with
  | unknown name payload => contradiction
  | headers blocks | block whole | tx transaction =>
    obtain ⟨written, -, rfl⟩ := Access.mapState_eq_ok_iff.1 h
    exact ⟨rfl, rfl⟩
  | _ =>
    simp only [Message.payload, EStateM.Result.ok.injEq] at h
    rw [← h.2]
    exact ⟨rfl, rfl⟩

/-! ## Frames -/

namespace Framer

variable (framer : Framer)

/-- The header announces the payload, whether or not it fits it otherwise. -/
structure Announces (header : FrameHeader) (payload : Bytes) : Prop where
  length : header.length.toNat = payload.length
  limit : header.length ≤ framer.params.maxMessageSize
  checksum : header.checksum.isSome = framer.checksum

/-- The header is one that is written for the payload. -/
structure Heads (header : FrameHeader) (name : String) (payload : Bytes) : Prop where
  name : header.commandName = .ok name
  length : header.length.toNat = payload.length
  limit : header.length ≤ framer.params.maxMessageSize
  checksum : header.checksum.isSome = framer.checksum
  verifies : header.verifies payload = true

variable {framer} {header : FrameHeader} {name : String} {payload : Bytes}

theorem Heads.announces (h : framer.Heads header name payload) :
    framer.Announces header payload :=
  ⟨h.length, h.limit, h.checksum⟩

theorem length_magic_append_wire (h : framer.Announces header payload) :
    (framer.params.magic.toBytes ++ header.wire).length = framer.overhead := by
  rw [List.length_append, framer.length_magic, header.length_wire]
  unfold FrameHeader.encodedLength overhead
  rw [h.checksum]
  cases framer.checksum <;> rfl

theorem headerAt_frame (h : framer.Announces header payload) (rest : Bytes) :
    framer.headerAt (framer.params.magic.toBytes ++ header.wire ++ rest) = .ok header := by
  have hread := FrameHeader.accepts_read framer.params.maxMessageSize framer.checksum
  have htake : (framer.params.magic.toBytes ++ header.wire ++ rest).take framer.overhead =
      framer.params.magic.toBytes ++ header.wire :=
    List.take_left' (length_magic_append_wire h)
  have hdrop : (framer.params.magic.toBytes ++ header.wire).drop 4 = header.wire :=
    List.drop_left' framer.length_magic
  rw [headerAt, htake, hdrop]
  exact Access.answer_eq_ok (hread.eq_ok_iff.2 ⟨⟨h.limit, h.checksum⟩, List.prefix_rfl, rfl⟩)

/-- The frame at the front of a buffer is taken out, whatever its payload comes to, and the rest is
left. -/
theorem takeFrame_frame (h : framer.Announces header payload) (rest : Bytes) :
    framer.takeFrame (framer.params.magic.toBytes ++ header.wire ++ payload ++ rest) =
      match framer.decodePayload header payload with
      | .ok message => .ok (some message) rest
      | .error e => .error e rest := by
  have hhead := length_magic_append_wire h
  have hframe : (framer.params.magic.toBytes ++ header.wire ++ payload).length =
      framer.frameSize header := by
    rw [List.length_append, hhead, frameSize, h.length]
  have hsize : framer.frameSize header ≤
      (framer.params.magic.toBytes ++ header.wire ++ payload ++ rest).length := by
    rw [List.length_append, hframe]
    exact Nat.le_add_right _ _
  have hheader : framer.headerAt
      (framer.params.magic.toBytes ++ header.wire ++ payload ++ rest) = .ok header := by
    rw [List.append_assoc _ payload rest, headerAt_frame h]
  have hpayload : ((framer.params.magic.toBytes ++ header.wire ++ payload ++ rest).take
      (framer.frameSize header)).drop framer.overhead = payload := by
    rw [List.take_left' hframe, List.drop_left' hhead]
  have htake := framer.takeFrame_of_whole hheader hsize
  rw [takeWhole, hpayload, List.drop_left' hframe] at htake
  refine htake.trans ?_
  cases framer.decodePayload header payload <;> rfl

theorem decodePayload_of_heads (h : framer.Heads header name payload) :
    framer.decodePayload header payload =
      match framer.parser? name with
      | some parser => parser payload framer.parse
      | none => .ok (.unknown name payload) := by
  unfold decodePayload
  rw [h.name]
  change (if header.verifies payload then _ else _ : Except CodecError Message) = _
  rw [if_pos h.verifies]
  rfl

/-- A payload that fits is written in a frame that carries its name up to the first zero. -/
theorem exists_heads_of_padded {command : Octets 12}
    (hpadded : FrameHeader.padded? name = some command)
    (hlimit : payload.length ≤ framer.params.maxMessageSize.toNat) :
    ∃ header, framer.Heads header (Text.Utf8.upToZero name) payload ∧ ∀ out,
      framer.writeRaw name payload out =
        .ok () (out ++ framer.params.magic.toBytes ++ header.wire ++ payload) := by
  have hsize : payload.length < UInt32.size :=
    hlimit.trans_lt framer.params.maxMessageSize.toNat_lt
  have hlength : (UInt32.ofNat payload.length).toNat = payload.length :=
    UInt32.toNat_ofNat_of_lt' hsize
  refine ⟨⟨command, UInt32.ofNat payload.length,
    if framer.checksum then some (CoinWire.checksum payload) else none⟩,
    ⟨FrameHeader.commandName_of_padded hpadded rfl, hlength, ?_, ?_, ?_⟩, ?_⟩
  · rw [UInt32.le_iff_toNat_le, hlength]
    exact hlimit
  · cases framer.checksum <;> rfl
  · apply FrameHeader.verifies_of_checksum
    intro sum hsum
    split_ifs at hsum
    · exact (Option.some.inj hsum).symm
    · contradiction
  · intro out
    have hheader : FrameHeader.ofPayload name payload framer.checksum =
        .ok ⟨command, UInt32.ofNat payload.length,
          if framer.checksum then some (CoinWire.checksum payload) else none⟩ := by
      rw [FrameHeader.ofPayload, hpadded]
      exact if_pos hsize
    unfold writeRaw
    rw [if_neg (Nat.not_lt.2 hlimit), hheader]
    rfl

theorem exists_heads (hname : FrameHeader.Carries name)
    (hlimit : payload.length ≤ framer.params.maxMessageSize.toNat) :
    ∃ header, framer.Heads header name payload ∧ ∀ out,
      framer.writeRaw name payload out =
        .ok () (out ++ framer.params.magic.toBytes ++ header.wire ++ payload) := by
  obtain ⟨command, hpadded⟩ := FrameHeader.exists_padded_iff.2 hname.1
  obtain ⟨header, hheads, hwrite⟩ := exists_heads_of_padded hpadded hlimit
  rw [hname.upToZero_eq] at hheads
  exact ⟨header, hheads, hwrite⟩

/-! ## Messages in frames -/

/-- The bytes that a message is sent as. -/
def frame (framer : Framer) (message : Message) : Bytes :=
  (framer.encode message).after []

/-- The payload of the message can be framed, and the parser of its command makes an equal message
of it. -/
def ReadsBack (framer : Framer) (message found : Message) : Prop :=
  ∃ payload parser, Message.payload.answer message = .ok payload ∧
    payload.length ≤ framer.params.maxMessageSize.toNat ∧
    framer.parser? message.command = some parser ∧ parser payload framer.parse = .ok found ∧
    (Message.compare found message).equal = true

/-- Without a payload nothing is written. -/
theorem write_of_error {message after : Message} {e : CodecError}
    (h : Message.payload message = .error e after) (out : Bytes) :
    framer.write ⟨message, out⟩ = .error e ⟨after, out⟩ := by
  unfold write
  rw [Access.bind_apply, Access.focus, h]
  rfl

/-- With a payload the output is what writing the payload makes of it. -/
theorem write_of_ok {message after : Message} (h : Message.payload message = .ok payload after)
    (out : Bytes) : framer.write ⟨message, out⟩ =
      Access.mapState (Outgoing.mk after) (framer.writeRaw message.command payload out) := by
  unfold write
  rw [Access.bind_apply, Access.focus, h, ← (Message.of_payload h).1]
  rfl

/-- The frame is put together apart from the buffer, and then appended to it. -/
theorem encode_apply (framer : Framer) (message : Message) (buffer : Bytes) :
    framer.encode message buffer =
      match framer.write ⟨message, []⟩ with
      | .ok _ outgoing => .ok () (buffer ++ outgoing.out)
      | .error e _ => .error e buffer := by
  unfold encode
  cases framer.write ⟨message, []⟩ <;> rfl

theorem encode_eq {message after : Message} (hpayload : Message.payload message = .ok payload after)
    {out : Bytes} (hwrite : framer.writeRaw message.command payload [] = .ok () out)
    (buffer : Bytes) : framer.encode message buffer = .ok () (buffer ++ out) := by
  rw [encode_apply, write_of_ok hpayload, hwrite]
  rfl

/-- A message that reads back is written as a frame from which it is read. -/
theorem ReadsBack.frame {message found : Message} (h : framer.ReadsBack message found) :
    (∀ buffer, framer.encode message buffer = .ok () (buffer ++ framer.frame message)) ∧
      ∀ rest, framer.takeFrame (framer.frame message ++ rest) = .ok (some found) rest := by
  obtain ⟨payload, parser, hanswer, hlimit, hparser, hfound, -⟩ := h
  obtain ⟨after, hpayload⟩ := Access.answer_eq_ok_iff.1 hanswer
  have hknown := (Message.of_payload hpayload).2
  obtain ⟨header, hheads, hwrite⟩ := exists_heads (Message.carries_command hknown) hlimit
  have hencode := encode_eq hpayload (hwrite [])
  have hframe : framer.frame message = framer.params.magic.toBytes ++ header.wire ++ payload := by
    unfold Framer.frame Access.after
    rw [hencode]
    rfl
  refine ⟨?_, ?_⟩
  · intro buffer
    rw [hencode, hframe]
    rfl
  · intro rest
    rw [hframe, takeFrame_frame hheads.announces, decodePayload_of_heads hheads, hparser]
    dsimp only
    rw [hfound]

/-! ## Streams of frames -/

/-- Frames of messages, each after some noise, and the noise after the last one. -/
def stream (framer : Framer) (sent : List (Bytes × Message)) (last : Bytes) : Bytes :=
  sent.flatMap (fun part ↦ part.1 ++ framer.frame part.2) ++ last

/-- Frame by frame, the noise is dropped and the frame behind it is whole. Of the noise after the
last one the bytes stay that may be the start of a magic. -/
theorem drain_stream {sent : List (Bytes × Message)} {last : Bytes}
    (hreads : ∀ part ∈ sent, ∃ found, framer.ReadsBack part.2 found)
    (hnoise : ∀ part ∈ sent,
      framer.findMagic? (part.1 ++ framer.frame part.2) = some part.1.length)
    (hlast : framer.findMagic? last = none) :
    ∃ found, List.Forall₂ (fun found part ↦ framer.ReadsBack part.2 found) found sent ∧
      framer.drain (framer.stream sent last) =
        ⟨found, .ok (last.drop (last.length - 3))⟩ := by
  induction sent with
  | nil =>
    have hdecode : framer.decode last = .ok none (last.drop (last.length - 3)) := by
      rw [decode_apply, hlast]
    refine ⟨[], .nil, ?_⟩
    change framer.drain last = _
    rw [drain_apply, hdecode]
  | cons part sent ih =>
    obtain ⟨message, hmessage⟩ := hreads part (by simp)
    obtain ⟨found, hfound, hdrain⟩ := ih (fun other hother ↦ hreads other (by simp [hother]))
      fun other hother ↦ hnoise other (by simp [hother])
    have hstream : framer.stream (part :: sent) last =
        part.1 ++ framer.frame part.2 ++ framer.stream sent last := by
      simp [stream]
    have hindex := framer.findMagic?_append (hnoise part (by simp)) (framer.stream sent last)
    have hdecode : framer.decode (framer.stream (part :: sent) last) =
        .ok (some message) (framer.stream sent last) := by
      rw [hstream, decode_apply, hindex, List.append_assoc]
      dsimp only
      rw [List.drop_left]
      exact hmessage.frame.2 _
    refine ⟨message :: found, .cons hmessage hfound, ?_⟩
    rw [drain_apply, hdecode]
    dsimp only
    rw [hdrain]

/-- Messages that their own parsers read back come through in order, whatever noise is between
their frames and however the bytes are cut, and at most the last three bytes are left. -/
theorem feed_stream {sent : List (Bytes × Message)} {last : Bytes} {chunks : List Bytes}
    (hreads : ∀ part ∈ sent, ∃ found, framer.ReadsBack part.2 found)
    (hnoise : ∀ part ∈ sent,
      framer.findMagic? (part.1 ++ framer.frame part.2) = some part.1.length)
    (hlast : framer.findMagic? last = none) (hchunks : chunks.flatten = framer.stream sent last) :
    (∀ part ∈ sent, ∀ buffer,
        framer.encode part.2 buffer = .ok () (buffer ++ framer.frame part.2)) ∧
      ∃ found, framer.feed [] chunks = ⟨found, .ok (last.drop (last.length - 3))⟩ ∧
        List.Forall₂ (fun message part ↦ (Message.compare message part.2).equal = true) found
          sent := by
  have hempty : framer.decode [] = .ok none [] := by
    rw [decode_apply]
    rfl
  obtain ⟨found, hfound, hdrain⟩ := drain_stream hreads hnoise hlast
  refine ⟨?_, found, ?_, ?_⟩
  · intro part hpart
    obtain ⟨message, hmessage⟩ := hreads part hpart
    exact hmessage.frame.1
  · rw [framer.feed_eq_drain hempty, List.nil_append, hchunks, hdrain]
  · apply hfound.imp
    rintro message part ⟨payload, parser, -, -, -, -, hequal⟩
    exact hequal

/-- Two frames after half a magic each, in a stream that is cut inside a magic. -/
theorem feed_ping_and_verack :
    let framer := new Network.unitTest.params
    let sent := [([0x0B, 0x11], .ping (some 42)), ([0x0B, 0x11, 0x09], .verack)]
    let bytes := framer.stream sent [0x0B]
    (∀ part ∈ sent, ∀ buffer,
        framer.encode part.2 buffer = .ok () (buffer ++ framer.frame part.2)) ∧
      ∃ found, framer.feed [] [bytes.take 5, [], bytes.drop 5] = ⟨found, .ok [0x0B]⟩ ∧
        List.Forall₂ (fun message part ↦ (Message.compare message part.2).equal = true) found
          sent := by
  intro framer sent bytes
  have hping : framer.ReadsBack (.ping (some 42)) (.ping (some 42)) :=
    ⟨_, _, rfl, by decide, rfl, rfl, rfl⟩
  have hverack : framer.ReadsBack .verack .verack :=
    ⟨_, _, rfl, by decide, rfl, rfl, rfl⟩
  have hreads : ∀ part ∈ sent, ∃ found, framer.ReadsBack part.2 found :=
    List.forall_mem_cons.2 ⟨⟨_, hping⟩, List.forall_mem_singleton.2 ⟨_, hverack⟩⟩
  have hnoise : ∀ part ∈ sent,
      framer.findMagic? (part.1 ++ framer.frame part.2) = some part.1.length := by
    decide +kernel
  have hlast : framer.findMagic? [0x0B] = none := by decide
  have hchunks : [bytes.take 5, [], bytes.drop 5].flatten = framer.stream sent [0x0B] := by
    simp [bytes]
  exact feed_stream hreads hnoise hlast hchunks

end Framer

end CoinWire
