import Mathlib
import CoinWire.Proofs.NextFrame

/-!
# Raw frames

A payload can be framed under any name of at most twelve bytes of ASCII. Reading takes the frame
apart again: the header behind the magic, the payload behind the header, and the reader stands
behind the frame. The name is padded with zeros and read up to the first zero. A name without zeros
comes back, so a payload for which there is no parser comes back under its name. Of a name with a
zero only the front comes back, and the payload goes to the parser of that front.
-/

namespace CoinWire

namespace Framer

variable {framer : Framer} {name : String} {payload : Bytes}

/-! ## Names -/

/-- Some payload can be framed under the name. -/
def AcceptsName (framer : Framer) (name : String) : Prop :=
  ∃ payload out written, framer.writeRaw name payload out = .ok () written

/-- A name that cannot be padded is refused, and nothing is written. -/
theorem writeRaw_of_not_padded (h : FrameHeader.padded? name = none) (out : Bytes) :
    ∃ e, framer.writeRaw name payload out = .error e out := by
  have hheader : FrameHeader.ofPayload name payload framer.checksum =
      .error (.violation (.invalidCommandName name)) := by
    rw [FrameHeader.ofPayload, h]
  unfold writeRaw
  by_cases hlimit : framer.params.maxMessageSize.toNat < payload.length
  · rw [if_pos hlimit]
    exact ⟨_, rfl⟩
  · rw [if_neg hlimit, hheader]
    exact ⟨_, rfl⟩

/-- The names of at most twelve bytes of ASCII are accepted, zeros or not. -/
theorem acceptsName_iff : framer.AcceptsName name ↔
    (Text.Utf8.encode name).length ≤ 12 ∧ (Text.Utf8.encode name).all (· < 0x80) := by
  rw [← FrameHeader.exists_padded_iff]
  constructor
  · rintro ⟨payload, out, written, hwrite⟩
    cases hpadded : FrameHeader.padded? name with
    | some command => exact ⟨command, rfl⟩
    | none =>
      obtain ⟨e, herror⟩ := writeRaw_of_not_padded hpadded out
      rw [herror] at hwrite
      contradiction
  · rintro ⟨command, hpadded⟩
    have hempty : ([] : Bytes).length ≤ framer.params.maxMessageSize.toNat := Nat.zero_le _
    obtain ⟨header, -, hwrite⟩ := exists_heads_of_padded hpadded hempty
    exact ⟨[], [], _, hwrite []⟩

/-! ## Frames -/

/-- Where the frame lies ahead, the header and the payload are read from it one after the other, and
then the reader stands behind the frame. To read it in one go is to decode this payload. -/
def ReadsAs (framer : Framer) (frame : Bytes) (header : FrameHeader) (payload : Bytes) : Prop :=
  ∀ (reader : Reader) (rest : Bytes), reader.ahead = frame ++ rest →
    ∃ atHeader atPayload after, framer.seek reader = .ok () atHeader ∧
      framer.readHeader atHeader = .ok header atPayload ∧
      Read.bytes header.length.toNat atPayload = .ok payload after ∧
      after.position = reader.position + frame.length ∧ after.ahead = rest ∧
      framer.read reader =
        match framer.decodePayload header payload with
        | .ok message => .ok message after
        | .error e => .error e after

/-- The header is found behind the magic, and the reader stands behind it. -/
theorem readHeader_frame {header : FrameHeader} (h : framer.Announces header payload)
    {reader : Reader} {rest : Bytes}
    (hahead : reader.ahead = framer.params.magic.toBytes ++ header.wire ++ rest) :
    framer.findMagic? reader.ahead = some 0 ∧
      framer.readHeader (reader.advance 4) = .ok header (reader.advance framer.overhead) ∧
      (reader.advance framer.overhead).ahead = rest := by
  have hmagic := framer.twenty_le_overhead
  have hopens : framer.Opens reader.ahead := by
    rw [hahead, List.append_assoc]
    exact List.prefix_append _ _
  have hheader : framer.headerAt reader.ahead = .ok header := by
    rw [hahead, headerAt_frame h]
  have hread := framer.readHeader_of_headerAt (reader.advance 4) rfl hheader
  have hskip : 4 + (framer.overhead - 4) = framer.overhead := by omega
  rw [Reader.advance_advance, hskip] at hread
  refine ⟨framer.findMagic?_of_opens hopens, hread, ?_⟩
  rw [Reader.ahead_advance, hahead, List.drop_left' (length_magic_append_wire h)]

/-- What a header announces is read behind it. -/
theorem readsAs_of_announces {header : FrameHeader} (h : framer.Announces header payload) :
    framer.ReadsAs (framer.params.magic.toBytes ++ header.wire ++ payload) header payload := by
  intro reader rest hahead
  have hlength : (framer.params.magic.toBytes ++ header.wire ++ payload).length =
      framer.overhead + payload.length := by
    rw [List.length_append, length_magic_append_wire h]
  have hroom : framer.overhead + payload.length ≤ reader.ahead.length := by
    rw [hahead, List.length_append, hlength]
    exact Nat.le_add_right _ _
  obtain ⟨hindex, hread, hbehind⟩ := readHeader_frame h (hahead.trans (List.append_assoc _ _ _))
  have hseek := framer.seek_of_some reader hindex
  have hbytes : Read.bytes header.length.toNat (reader.advance framer.overhead) =
      .ok payload (reader.advance (framer.overhead + payload.length)) := by
    rw [← Reader.advance_advance]
    refine (Read.accepts_bytes _).eq_ok_iff.2 ⟨h.length.symm, ?_, rfl⟩
    rw [hbehind]
    exact List.prefix_append _ _
  refine ⟨_, _, _, hseek, hread, hbytes, ?_, ?_, ?_⟩
  · rw [hlength]
    exact congrArg _ (List.length_take_of_le hroom)
  · rw [← hlength, Reader.ahead_advance, hahead, List.drop_left]
  · rw [framer.read_of_some reader hindex, Nat.zero_add, hread]
    dsimp only
    rw [Access.bind_apply, hbytes]
    dsimp only
    rw [Access.ofExcept_apply]
    cases framer.decodePayload header payload <;> rfl

/-- A payload that fits, framed under any name that is accepted, comes back with a checksum that
verifies, and the reader stands at the end of the frame. The name comes back up to its first zero,
which is the whole name exactly if there is no zero in it. The parser of what came back decodes the
payload; if there is none, the payload comes back as unknown. -/
theorem raw_frame_reads_back (hname : framer.AcceptsName name)
    (hlimit : payload.length ≤ framer.params.maxMessageSize.toNat) :
    ∃ frame header, (∀ out, framer.writeRaw name payload out = .ok () (out ++ frame)) ∧
      framer.ReadsAs frame header payload ∧ header.verifies payload = true ∧
      header.commandName = .ok (Text.Utf8.upToZero name) ∧
      (Text.Utf8.upToZero name = name ↔ '\x00' ∉ name.toList) ∧
      framer.decodePayload header payload =
        match framer.parser? (Text.Utf8.upToZero name) with
        | some parser => parser payload framer.parse
        | none => .ok (.unknown (Text.Utf8.upToZero name) payload) := by
  obtain ⟨command, hpadded⟩ := FrameHeader.exists_padded_iff.2 (acceptsName_iff.1 hname)
  obtain ⟨header, hheads, hwrite⟩ := exists_heads_of_padded hpadded hlimit
  refine ⟨framer.params.magic.toBytes ++ header.wire ++ payload, header, ?_,
    readsAs_of_announces hheads.announces, hheads.verifies, hheads.name,
    Text.Utf8.upToZero_eq_self_iff, decodePayload_of_heads hheads⟩
  intro out
  rw [hwrite]
  simp only [List.append_assoc]

/-- The name `foo` with the payload `01 02 03`, written with a checksum: the frame reads back under
that name. -/
theorem raw_frame_reads_back_foo :
    let framer := { new Network.unitTest.params with checksum := true }
    let payload : Bytes := [1, 2, 3]
    framer.AcceptsName "foo" ∧ payload.length ≤ framer.params.maxMessageSize.toNat ∧
      ∃ frame header, (∀ out, framer.writeRaw "foo" payload out = .ok () (out ++ frame)) ∧
        framer.ReadsAs frame header payload ∧ header.verifies payload = true ∧
        header.commandName = .ok (Text.Utf8.upToZero "foo") ∧
        (Text.Utf8.upToZero "foo" = "foo" ↔ '\x00' ∉ "foo".toList) ∧
        framer.decodePayload header payload =
          match framer.parser? (Text.Utf8.upToZero "foo") with
          | some parser => parser payload framer.parse
          | none => .ok (.unknown (Text.Utf8.upToZero "foo") payload) := by
  intro framer payload
  have hname : framer.AcceptsName "foo" := acceptsName_iff.2 (by decide +kernel)
  have hlimit : payload.length ≤ framer.params.maxMessageSize.toNat := by decide
  exact ⟨hname, hlimit, raw_frame_reads_back hname hlimit⟩

/-- A payload of eight bytes in a frame under a name with a zero behind the name of a command. -/
def cutPong : Bytes :=
  [0x0B, 0x11, 0x09, 0x07, 0x70, 0x6F, 0x6E, 0x67, 0, 0x78, 0, 0, 0, 0, 0, 0, 8, 0, 0, 0,
    9, 0, 0, 0, 0, 0, 0, 0]

/-- What is read behind its magic. -/
def cutHeader : FrameHeader :=
  ⟨⟨[0x70, 0x6F, 0x6E, 0x67, 0, 0x78, 0, 0, 0, 0, 0, 0], rfl⟩, 8, none⟩

theorem writeRaw_cutPong :
    (new Network.unitTest.params).writeRaw "pong\x00x" [9, 0, 0, 0, 0, 0, 0, 0] [] =
      .ok () cutPong := by
  cbv

theorem commandName_cutHeader : cutHeader.commandName = .ok "pong" := by
  cbv

theorem answer_cutPong :
    (new Network.unitTest.params).read.answer (Reader.ofBytes cutPong) = .ok (.pong 9) := by
  cbv

/-- A name that is accepted need not come back, and a payload for which there is no parser may be
given to one. -/
theorem zero_cuts_name :
    (¬∀ (framer : Framer) (name : String) (payload frame : Bytes) (header : FrameHeader),
      framer.writeRaw name payload [] = .ok () frame →
        framer.readHeader.answer ((Reader.ofBytes frame).advance 4) = .ok header →
          header.commandName = .ok name) ∧
      ¬∀ (framer : Framer) (name : String) (payload frame : Bytes),
        framer.writeRaw name payload [] = .ok () frame → framer.parser? name = none →
          framer.read.answer (Reader.ofBytes frame) = .ok (.unknown name payload) := by
  constructor
  · intro h
    have hname := h _ _ _ _ cutHeader writeRaw_cutPong rfl
    rw [commandName_cutHeader, Except.ok.injEq] at hname
    exact absurd hname (by decide)
  · intro h
    have hanswer := h _ _ _ _ writeRaw_cutPong (by decide)
    rw [answer_cutPong, Except.ok.injEq] at hanswer
    contradiction

end Framer

end CoinWire
