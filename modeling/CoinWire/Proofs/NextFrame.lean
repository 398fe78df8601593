import Mathlib
import CoinWire.Proofs.Agreement
import CoinWire.Proofs.Framing

/-!
# The next frame

A reader and a decoder look at the same bytes for the next frame: those from the first magic on.
What they find there is one of three things. The header announces too much and is refused, a part of
the frame is missing, or the frame has all arrived and its payload is decoded. A reader refuses as
soon as it has the length, a decoder once it has the whole header, and that is the only difference
between them.
-/

namespace CoinWire

open Read

theorem Reader.ahead_ofBytes (bytes : Bytes) : (Reader.ofBytes bytes).ahead = bytes := rfl

/-! ## Headers -/

namespace FrameHeader

/-- The length that the header at the front of the bytes announces. -/
def announced (bytes : Bytes) : UInt32 :=
  UInt32.ofNat (Bytes.ofLittleEndian ((bytes.drop 12).take 4))

/-- The announced length lies within the first sixteen bytes. -/
theorem announced_take {count : Nat} (h : 16 ≤ count) (bytes : Bytes) :
    announced (bytes.take count) = announced bytes := by
  have hmin : min 4 (count - 12) = 4 := by omega
  rw [announced, announced, List.drop_take, List.take_take, hmin]

/-- The announced length of an encoded header is the one it was made with. -/
theorem announced_of_prefix {command : Octets 12} {length : UInt32} {bytes : Bytes}
    (h : command.toBytes ++ Bytes.ofUInt32 length <+: bytes) : announced bytes = length := by
  obtain ⟨rest, rfl⟩ := h
  have hlt : length.toNat < 256 ^ 4 := length.toNat_lt
  have hfield : ((command.toBytes ++ Bytes.ofUInt32 length ++ rest).drop 12).take 4 =
      Bytes.ofUInt32 length := by
    rw [List.append_assoc, List.drop_left' command.length_toBytes,
      List.take_left' (Bytes.length_ofUInt32 length)]
  rw [announced, hfield, Bytes.ofUInt32, Bytes.ofLittleEndian_littleEndian, Nat.mod_eq_of_lt hlt,
    UInt32.ofNat_toNat]

/-- The command and the length, which are there in every header. -/
def readFixed : Read (Octets 12 × UInt32) := do
  let command ← take 12
  let length ← uint32
  return (command, length)

theorem spans_readFixed : Spans 16 readFixed :=
  (Spans.take 12).bind fun _ ↦ Spans.uint32.bind fun _ ↦ Spans.pure _

theorem announced_of_readFixed {reader after : Reader} {fixed : Octets 12 × UInt32}
    (h : readFixed reader = .ok fixed after) : announced reader.ahead = fixed.2 := by
  have haccepts := (accepts_take 12).bind fun command ↦
    accepts_uint32.bind fun length ↦ Accepts.pure (command, length)
  obtain ⟨⟨command, length, _⟩, -, rfl, hahead, -⟩ := (haccepts reader fixed after).1 h
  dsimp only at hahead ⊢
  rw [List.append_nil] at hahead
  exact announced_of_prefix hahead

/-- The limit is checked once the fixed fields are read, and before the checksum is. -/
theorem read_eq_fixed (limit : UInt32) (withChecksum : Bool) :
    FrameHeader.read limit withChecksum = (do
      let fixed ← readFixed
      if fixed.2 ≤ limit then do
        let checksum ← present withChecksum (take 4)
        return ⟨fixed.1, fixed.2, checksum⟩
      else throw (.violation (.messageTooLarge fixed.2.toNat limit))) := by
  rw [read_eq, readFixed]
  simp only [bind_assoc, pure_bind]

theorem spans_present (withChecksum : Bool) :
    Spans (if withChecksum then 4 else 0) (present withChecksum (take 4)) := by
  cases withChecksum with
  | false => exact Spans.pure none
  | true => exact (Spans.take 4).bind fun _ ↦ Spans.pure _

end FrameHeader

namespace Framer

variable (framer : Framer) {front : Bytes} (reader : Reader) {index : Nat}

/-- The header at the front has come as far as its length, and that is past the limit. -/
def Refused (front : Bytes) : Prop :=
  20 ≤ front.length ∧ framer.params.maxMessageSize < FrameHeader.announced (front.drop 4)

instance : Decidable (framer.Refused front) :=
  inferInstanceAs (Decidable (_ ∧ _))

/-- The error that a header is refused with. -/
def refusal (front : Bytes) : CodecError :=
  .violation (.messageTooLarge (FrameHeader.announced (front.drop 4)).toNat
    framer.params.maxMessageSize)

theorem overhead_eq : framer.overhead = 20 + if framer.checksum then 4 else 0 := by
  unfold overhead
  cases framer.checksum <;> rfl

/-- A header that announces too much is refused, whether or not its checksum is there. -/
theorem readHeader_of_refused (hahead : reader.ahead = front.drop 4) (h : framer.Refused front) :
    ∃ after, framer.readHeader reader = .error (framer.refusal front) after := by
  obtain ⟨hlength, hlimit⟩ := h
  have hfixed := FrameHeader.spans_readFixed reader
  rw [if_pos (by rw [hahead, List.length_drop]; omega)] at hfixed
  obtain ⟨fixed, hfixed⟩ := hfixed
  have hannounced := FrameHeader.announced_of_readFixed hfixed
  rw [hahead] at hannounced
  rw [hannounced] at hlimit
  refine ⟨reader.advance 16, ?_⟩
  rw [readHeader, FrameHeader.read_eq_fixed, Access.bind_apply, hfixed]
  dsimp only
  rw [if_neg (UInt32.not_le.2 hlimit), refusal, hannounced]
  rfl

/-- A header that is not refused is read if it has all arrived, and fails for want of bytes
otherwise. -/
theorem readHeader_of_not_refused (hahead : reader.ahead = front.drop 4)
    (hmagic : 4 ≤ front.length) (h : ¬framer.Refused front) :
    if framer.overhead ≤ front.length then
      ∃ header after, framer.readHeader reader = .ok header after
    else ∃ needed remaining after,
      framer.readHeader reader = .error (.underrun needed remaining) after := by
  have hoverhead := framer.overhead_eq
  have hlength : reader.ahead.length = front.length - 4 := by rw [hahead, List.length_drop]
  have hfixed := FrameHeader.spans_readFixed reader
  rw [readHeader, FrameHeader.read_eq_fixed, Access.bind_apply]
  by_cases hsixteen : 16 ≤ reader.ahead.length
  · rw [if_pos hsixteen] at hfixed
    obtain ⟨fixed, hfixed⟩ := hfixed
    have hannounced := FrameHeader.announced_of_readFixed hfixed
    have hlimit : fixed.2 ≤ framer.params.maxMessageSize := by
      rw [hahead] at hannounced
      rw [← hannounced, ← UInt32.not_lt]
      exact fun hlimit ↦ h ⟨by omega, hlimit⟩
    rw [hfixed]
    dsimp only
    rw [if_pos hlimit]
    have hrest := ((FrameHeader.spans_present framer.checksum).bind fun checksum ↦
      Spans.pure (FrameHeader.mk fixed.1 fixed.2 checksum)) (reader.advance 16)
    have hroom : (if framer.checksum then 4 else 0) + 0 ≤ (reader.advance 16).ahead.length ↔
        framer.overhead ≤ front.length := by
      rw [Reader.ahead_advance, List.length_drop]
      omega
    rw [if_congr hroom rfl rfl] at hrest
    by_cases harrived : framer.overhead ≤ front.length
    · rw [if_pos harrived] at hrest ⊢
      obtain ⟨header, hheader⟩ := hrest
      exact ⟨header, _, hheader⟩
    · rwa [if_neg harrived] at hrest ⊢
  · rw [if_neg hsixteen] at hfixed
    obtain ⟨needed, remaining, after, hfixed⟩ := hfixed
    rw [if_neg (by omega), hfixed]
    exact ⟨needed, remaining, after, rfl⟩

/-! ## The header in the buffer -/

theorem twenty_le_overhead : 20 ≤ framer.overhead := by
  rw [overhead_eq]
  exact Nat.le_add_right _ _

/-- Only the first twenty bytes count. -/
theorem refused_take_iff {count : Nat} (h : 20 ≤ count) :
    framer.Refused (front.take count) ↔ framer.Refused front := by
  unfold Refused
  rw [List.drop_take, FrameHeader.announced_take (by omega), List.length_take, le_min_iff]
  simp [h]

/-- What is refused is known from the first twenty bytes. -/
theorem refusal_take {count : Nat} (h : 20 ≤ count) :
    framer.refusal (front.take count) = framer.refusal front := by
  unfold refusal
  rw [List.drop_take, FrameHeader.announced_take (by omega)]

/-- More bytes do not make a refused header acceptable, nor the refusal another. -/
theorem refused_append (h : framer.Refused front) (more : Bytes) :
    framer.Refused (front ++ more) ∧ framer.refusal (front ++ more) = framer.refusal front := by
  have hfront : (front ++ more).take 20 = front.take 20 := List.take_append_of_le_length h.1
  rw [← framer.refused_take_iff le_rfl, ← framer.refusal_take le_rfl, hfront,
    framer.refused_take_iff le_rfl, framer.refusal_take le_rfl]
  exact ⟨h, rfl⟩

theorem headerAt_of_refused (h : framer.Refused front) :
    framer.headerAt front = .error (framer.refusal front) := by
  obtain ⟨after, hheader⟩ := framer.readHeader_of_refused
    (Reader.ofBytes ((front.take framer.overhead).drop 4)) rfl
    ((framer.refused_take_iff framer.twenty_le_overhead).2 h)
  rw [headerAt, Access.answer_eq_error hheader, framer.refusal_take framer.twenty_le_overhead]

/-- A header that has all arrived and is not refused is read. -/
theorem exists_headerAt (hoverhead : framer.overhead ≤ front.length) (h : ¬framer.Refused front) :
    ∃ header, framer.headerAt front = .ok header := by
  have hsize := framer.twenty_le_overhead
  have hlength := List.length_take_of_le hoverhead
  have hread := framer.readHeader_of_not_refused
    (Reader.ofBytes ((front.take framer.overhead).drop 4)) rfl (by omega)
    (mt (framer.refused_take_iff hsize).1 h)
  rw [if_pos (by omega)] at hread
  obtain ⟨header, after, hread⟩ := hread
  exact ⟨header, Access.answer_eq_ok hread⟩

/-- A header that has all arrived fails just if it is refused. -/
theorem refused_of_headerAt {e : CodecError} (hoverhead : framer.overhead ≤ front.length)
    (h : framer.headerAt front = .error e) : framer.Refused front ∧ e = framer.refusal front := by
  by_cases hrefused : framer.Refused front
  · rw [framer.headerAt_of_refused hrefused] at h
    injection h with he
    exact ⟨hrefused, he.symm⟩
  · obtain ⟨header, hheader⟩ := framer.exists_headerAt hoverhead hrefused
    rw [hheader] at h
    contradiction

theorem not_refused_of_headerAt {header : FrameHeader} (h : framer.headerAt front = .ok header) :
    ¬framer.Refused front := by
  intro hrefused
  rw [framer.headerAt_of_refused hrefused] at h
  contradiction

theorem readHeader_of_headerAt {header : FrameHeader} (hahead : reader.ahead = front.drop 4)
    (h : framer.headerAt front = .ok header) :
    framer.readHeader reader = .ok header (reader.advance (framer.overhead - 4)) := by
  have haccepts := FrameHeader.accepts_read framer.params.maxMessageSize framer.checksum
  obtain ⟨after, hread⟩ := Access.answer_eq_ok_iff.1 h
  obtain ⟨hfits, hwire, -⟩ := haccepts.eq_ok_iff.1 hread
  have hprefix : header.wire <+: reader.ahead := by
    rw [hahead]
    rw [Reader.ofBytes, List.drop_take] at hwire
    exact hwire.trans (List.take_prefix _ _)
  have hlength : header.wire.length = framer.overhead - 4 := by
    rw [header.length_wire, FrameHeader.encodedLength, hfits.2]
    unfold overhead
    cases framer.checksum <;> rfl
  rw [← hlength]
  exact haccepts.eq_ok_iff.2 ⟨hfits, hprefix, rfl⟩

/-! ## Reading a frame -/

/-- Without a magic, everything is passed over. -/
theorem seek_of_none (h : framer.findMagic? reader.ahead = none) :
    framer.seek reader = .error .magicNotFound (reader.advance reader.remaining) := by
  have hall : reader.remaining ≤ reader.ahead.length := le_rfl
  have hskip := Spans.skip reader.remaining reader
  have hget : (get : Read Reader) reader = .ok reader reader := rfl
  rw [if_pos hall] at hskip
  obtain ⟨_, hskip⟩ := hskip
  rw [seek, Access.bind_apply, hget]
  dsimp only
  rw [h]
  dsimp only
  rw [Access.bind_apply, hskip]
  rfl

/-- The first magic is passed over together with what lies before it. -/
theorem seek_of_some (h : framer.findMagic? reader.ahead = some index) :
    framer.seek reader = .ok () (reader.advance (index + 4)) := by
  have hskip := Spans.skip (index + 4) reader
  have hget : (get : Read Reader) reader = .ok reader reader := rfl
  rw [if_pos (framer.add_four_le_of_findMagic? h)] at hskip
  obtain ⟨_, hskip⟩ := hskip
  rw [seek, Access.bind_apply, hget]
  dsimp only
  rw [h]
  exact hskip

theorem read_of_none (h : framer.findMagic? reader.ahead = none) :
    framer.read reader = .error .magicNotFound (reader.advance reader.remaining) := by
  unfold read
  rw [Access.bind_apply, framer.seek_of_none reader h]

/-- Behind the magic comes the header. -/
theorem read_of_some (h : framer.findMagic? reader.ahead = some index) :
    framer.read reader =
      match framer.readHeader (reader.advance (index + 4)) with
      | .ok header after => (do
          let payload ← Read.bytes header.length.toNat
          MonadExcept.ofExcept (framer.decodePayload header payload) : Read Message) after
      | .error e after => .error e after := by
  unfold read
  rw [Access.bind_apply, framer.seek_of_some reader h]
  dsimp only
  rw [Access.bind_apply]
  cases framer.readHeader (reader.advance (index + 4)) <;> rfl

theorem ahead_advance_magic (index : Nat) :
    (reader.advance (index + 4)).ahead = (reader.ahead.drop index).drop 4 := by
  rw [Reader.ahead_advance, List.drop_drop]

/-- Behind the first magic, a refused header ends the read. -/
theorem read_of_refused (hindex : framer.findMagic? reader.ahead = some index)
    (h : framer.Refused (reader.ahead.drop index)) :
    ∃ after, framer.read reader = .error (framer.refusal (reader.ahead.drop index)) after := by
  obtain ⟨after, hheader⟩ := framer.readHeader_of_refused _ (ahead_advance_magic reader index) h
  exact ⟨after, by rw [framer.read_of_some reader hindex, hheader]⟩

/-- A frame that has all arrived is passed over whole, and its payload alone decides on the answer.
-/
theorem read_of_whole {header : FrameHeader} (hindex : framer.findMagic? reader.ahead = some index)
    (hheader : framer.headerAt (reader.ahead.drop index) = .ok header)
    (hsize : framer.frameSize header ≤ (reader.ahead.drop index).length) :
    framer.read reader = (MonadExcept.ofExcept (framer.decodePayload header
      (((reader.ahead.drop index).take (framer.frameSize header)).drop framer.overhead)) :
      Read Message) (reader.advance (index + framer.frameSize header)) := by
  have hmagic := framer.twenty_le_overhead
  have hread := framer.readHeader_of_headerAt _ (ahead_advance_magic reader index) hheader
  have hskip : index + 4 + (framer.overhead - 4) = index + framer.overhead := by omega
  rw [Reader.advance_advance, hskip] at hread
  have hpayload : ((reader.ahead.drop index).take (framer.frameSize header)).drop
      framer.overhead = (reader.ahead.drop (index + framer.overhead)).take header.length.toNat := by
    rw [List.drop_take, List.drop_drop, frameSize, Nat.add_sub_cancel_left]
  have hlength : ((reader.ahead.drop (index + framer.overhead)).take header.length.toNat).length =
      header.length.toNat := by
    rw [frameSize, List.length_drop] at hsize
    rw [List.length_take_of_le]
    rw [List.length_drop]
    omega
  have hbytes : Read.bytes header.length.toNat (reader.advance (index + framer.overhead)) =
      .ok ((reader.ahead.drop (index + framer.overhead)).take header.length.toNat)
        (reader.advance (index + framer.frameSize header)) := by
    refine (accepts_bytes _).eq_ok_iff.2 ⟨hlength, List.take_prefix _ _, ?_⟩
    rw [id, hlength, Reader.advance_advance, Nat.add_assoc]
    rfl
  rw [framer.read_of_some reader hindex, hread, hpayload]
  dsimp only
  rw [Access.bind_apply, hbytes]

/-- A frame that has not all arrived ends the read for want of bytes. -/
theorem read_of_partial (hindex : framer.findMagic? reader.ahead = some index)
    (hrefused : ¬framer.Refused (reader.ahead.drop index))
    (h : framer.Partial (reader.ahead.drop index)) :
    ∃ needed remaining after, framer.read reader = .error (.underrun needed remaining) after := by
  have hmagic := framer.twenty_le_overhead
  have hopens := framer.four_le_of_opens (framer.findMagic?_eq_some_iff.1 hindex).1
  have hheader := framer.readHeader_of_not_refused _ (ahead_advance_magic reader index) hopens
    hrefused
  rw [framer.read_of_some reader hindex]
  by_cases hoverhead : framer.overhead ≤ (reader.ahead.drop index).length
  · obtain hshort | ⟨header, hread, hshort⟩ := h
    · omega
    · have hbytes := Spans.bytes header.length.toNat
        ((reader.advance (index + 4)).advance (framer.overhead - 4))
      rw [if_neg] at hbytes
      · obtain ⟨needed, remaining, after, hbytes⟩ := hbytes
        rw [framer.readHeader_of_headerAt _ (ahead_advance_magic reader index) hread]
        dsimp only
        rw [Access.bind_apply, hbytes]
        exact ⟨needed, remaining, after, rfl⟩
      · rw [Reader.ahead_advance, ahead_advance_magic, List.length_drop, List.length_drop]
        unfold frameSize at hshort
        omega
  · rw [if_neg hoverhead] at hheader
    obtain ⟨needed, remaining, after, hheader⟩ := hheader
    exact ⟨needed, remaining, after, by rw [hheader]⟩

/-- The answer to a frame that has all arrived depends on the header and the payload only. -/
theorem answer_of_whole {header : FrameHeader}
    (hindex : framer.findMagic? reader.ahead = some index)
    (hheader : framer.headerAt (reader.ahead.drop index) = .ok header)
    (hsize : framer.frameSize header ≤ (reader.ahead.drop index).length) :
    framer.read.answer reader = framer.decodePayload header
      (((reader.ahead.drop index).take (framer.frameSize header)).drop framer.overhead) := by
  rw [Access.answer, framer.read_of_whole reader hindex hheader hsize, Access.ofExcept_apply]
  cases framer.decodePayload header _ <;> rfl

/-- A frame that is not refused has not all arrived, or it has. -/
theorem partial_or_whole (h : ¬framer.Refused front) :
    framer.Partial front ∨
      ∃ header, framer.headerAt front = .ok header ∧ framer.frameSize header ≤ front.length := by
  by_cases hoverhead : framer.overhead ≤ front.length
  · obtain ⟨header, hheader⟩ := framer.exists_headerAt hoverhead h
    by_cases hsize : framer.frameSize header ≤ front.length
    · exact .inr ⟨header, hheader, hsize⟩
    · exact .inl (.inr ⟨header, hheader, Nat.lt_of_not_le hsize⟩)
  · exact .inl (.inl (Nat.lt_of_not_le hoverhead))

/-- No magic is found, or the header behind it is refused, or a part of the frame is missing, or its
payload is decoded. -/
theorem answer_read_cases :
    (framer.findMagic? reader.ahead = none ∧
        framer.read.answer reader = .error .magicNotFound) ∨
      ∃ index, framer.findMagic? reader.ahead = some index ∧
        ((framer.Refused (reader.ahead.drop index) ∧
            framer.read.answer reader = .error (framer.refusal (reader.ahead.drop index))) ∨
          (framer.Partial (reader.ahead.drop index) ∧
            ∃ needed remaining, framer.read.answer reader = .error (.underrun needed remaining)) ∨
          ∃ header, framer.headerAt (reader.ahead.drop index) = .ok header ∧
            framer.frameSize header ≤ (reader.ahead.drop index).length ∧
            framer.read.answer reader = framer.decodePayload header
              (((reader.ahead.drop index).take (framer.frameSize header)).drop
                framer.overhead)) := by
  cases hindex : framer.findMagic? reader.ahead with
  | none => exact .inl ⟨rfl, Access.answer_eq_error (framer.read_of_none reader hindex)⟩
  | some index =>
    refine .inr ⟨index, rfl, ?_⟩
    by_cases hrefused : framer.Refused (reader.ahead.drop index)
    · obtain ⟨after, hread⟩ := framer.read_of_refused reader hindex hrefused
      exact .inl ⟨hrefused, Access.answer_eq_error hread⟩
    · obtain hpartial | ⟨header, hheader, hsize⟩ := framer.partial_or_whole hrefused
      · obtain ⟨needed, remaining, after, hread⟩ :=
          framer.read_of_partial reader hindex hrefused hpartial
        exact .inr (.inl ⟨hpartial, needed, remaining, Access.answer_eq_error hread⟩)
      · exact .inr (.inr ⟨header, hheader, hsize,
          framer.answer_of_whole reader hindex hheader hsize⟩)

/-! ## Reader and decoder -/

/-- The frame at the index announces too much, and its checksum is not all there. -/
def EndsInChecksum (stream : Bytes) (index : Nat) : Prop :=
  framer.checksum = true ∧ framer.findMagic? stream = some index ∧
    index + 20 ≤ stream.length ∧ stream.length < index + 24 ∧
    framer.params.maxMessageSize < FrameHeader.announced (stream.drop (index + 4))

theorem endsInChecksum_iff {stream : Bytes} (h : framer.findMagic? stream = some index) :
    framer.EndsInChecksum stream index ↔
      framer.Refused (stream.drop index) ∧ (stream.drop index).length < framer.overhead := by
  have hroom := framer.add_four_le_of_findMagic? h
  unfold EndsInChecksum Refused overhead
  rw [List.drop_drop, List.length_drop]
  constructor
  · rintro ⟨hchecksum, -, hlength, hshort, hlimit⟩
    rw [if_pos hchecksum]
    exact ⟨⟨by omega, hlimit⟩, by omega⟩
  · rintro ⟨⟨hlength, hlimit⟩, hshort⟩
    split_ifs at hshort with hchecksum
    · exact ⟨hchecksum, h, by omega, by omega, hlimit⟩
    · omega

/-- Where a decoder waits for the rest of a frame, a reader fails for want of bytes. -/
theorem answer_of_partial {stream : Bytes} (hindex : framer.findMagic? stream = some index)
    (h : framer.Partial (stream.drop index)) :
    (∃ e, framer.read.answer (Reader.ofBytes stream) = .error e ∧ e.isUnderrun = true ∧
        ¬framer.EndsInChecksum stream index) ∨
      framer.read.answer (Reader.ofBytes stream) =
          .error (framer.refusal (stream.drop index)) ∧
        framer.EndsInChecksum stream index := by
  rw [framer.endsInChecksum_iff hindex]
  by_cases hrefused : framer.Refused (stream.drop index)
  · -- A decoder that had the whole header would have refused it as well.
    have hshort : (stream.drop index).length < framer.overhead := by
      obtain hshort | ⟨header, hheader, -⟩ := h
      · exact hshort
      · exact absurd hrefused (framer.not_refused_of_headerAt hheader)
    obtain ⟨after, hread⟩ := framer.read_of_refused (Reader.ofBytes stream) hindex
      hrefused
    exact .inr ⟨Access.answer_eq_error hread, hrefused, hshort⟩
  · obtain ⟨needed, remaining, after, hread⟩ := framer.read_of_partial
      (Reader.ofBytes stream) hindex hrefused h
    exact .inl ⟨_, Access.answer_eq_error hread, rfl, fun hends ↦ hrefused hends.1⟩

/-- After a message the reader stands behind the frame. -/
theorem read_of_message {stream : Bytes} {header : FrameHeader} {message : Message}
    (hindex : framer.findMagic? stream = some index)
    (hheader : framer.headerAt (stream.drop index) = .ok header)
    (hsize : framer.frameSize header ≤ (stream.drop index).length)
    (hpayload : framer.decodePayload header
      (((stream.drop index).take (framer.frameSize header)).drop framer.overhead) = .ok message) :
    ∃ after, framer.read (Reader.ofBytes stream) = .ok message after ∧
      after.position = index + framer.frameSize header ∧
      after.position + after.ahead.length = stream.length ∧
      after.ahead = (stream.drop index).drop (framer.frameSize header) := by
  have hread := framer.read_of_whole (Reader.ofBytes stream) hindex hheader hsize
  have hroom := framer.add_four_le_of_findMagic? hindex
  rw [Access.ofExcept_apply, Reader.ahead_ofBytes, hpayload] at hread
  rw [List.length_drop] at hsize
  have hposition : ((Reader.ofBytes stream).advance
      (index + framer.frameSize header)).position = index + framer.frameSize header := by
    simp [Reader.advance, Reader.ofBytes]
    omega
  refine ⟨_, hread, hposition, ?_, ?_⟩
  · rw [hposition, Reader.ahead_advance, Reader.ahead_ofBytes, List.length_drop]
    omega
  · rw [Reader.ahead_advance, Reader.ahead_ofBytes, List.drop_drop]

/-- A reader at the start of a stream and a decoder that holds the stream agree: on the message and
the bytes it took, on the error, and on that more bytes are needed. Only where a stream ends in the
checksum of a frame that announces too much, the reader already refuses the frame. -/
theorem read_of_decode (stream : Bytes) :
    match framer.decode stream with
    | .ok (some message) rest =>
      ∃ index header after, framer.findMagic? stream = some index ∧
        framer.headerAt (stream.drop index) = .ok header ∧
        framer.read (Reader.ofBytes stream) = .ok message after ∧
        after.position = index + framer.frameSize header ∧
        after.position + rest.length = stream.length ∧ after.ahead = rest
    | .ok none _ =>
      ∃ e, framer.read.answer (Reader.ofBytes stream) = .error e ∧
        ((e.isUnderrun = true ∧ ∀ index, ¬framer.EndsInChecksum stream index) ∨
          ∃ index, framer.EndsInChecksum stream index ∧
            e = .violation (.messageTooLarge
              (FrameHeader.announced (stream.drop (index + 4))).toNat
              framer.params.maxMessageSize))
    | .error e _ => framer.read.answer (Reader.ofBytes stream) = .error e := by
  rw [decode_apply]
  cases hindex : framer.findMagic? stream with
  | none =>
    have hread := framer.read_of_none (Reader.ofBytes stream) hindex
    refine ⟨.magicNotFound, Access.answer_eq_error hread, .inl ⟨rfl, ?_⟩⟩
    rintro index ⟨-, hfound, -⟩
    rw [hindex] at hfound
    contradiction
  | some index =>
    dsimp only
    obtain ⟨hpartial, htake⟩ | ⟨e, hoverhead, hheader, htake⟩ | ⟨header, hsize, hheader, htake⟩ :=
      framer.takeFrame_cases (stream.drop index)
    · rw [htake]
      obtain ⟨e, hanswer, hunderrun, hends⟩ | ⟨hanswer, hends⟩ :=
        framer.answer_of_partial hindex hpartial
      · refine ⟨e, hanswer, .inl ⟨hunderrun, ?_⟩⟩
        intro other hother
        have hsame := hother.2.1
        rw [hindex] at hsame
        injection hsame with hsame
        exact hends (hsame ▸ hother)
      · refine ⟨_, hanswer, .inr ⟨index, hends, ?_⟩⟩
        rw [refusal, List.drop_drop]
    · obtain ⟨hrefused, he⟩ := framer.refused_of_headerAt hoverhead hheader
      obtain ⟨after, hread⟩ := framer.read_of_refused (Reader.ofBytes stream) hindex
        hrefused
      rw [htake, he]
      exact Access.answer_eq_error hread
    · rw [htake, takeWhole]
      cases hpayload : framer.decodePayload header
          (((stream.drop index).take (framer.frameSize header)).drop framer.overhead) with
      | error e =>
        exact (framer.answer_of_whole (Reader.ofBytes stream) hindex hheader hsize).trans hpayload
      | ok message =>
        obtain ⟨after, hread, hposition, htotal, hahead⟩ :=
          framer.read_of_message hindex hheader hsize hpayload
        exact ⟨index, header, after, rfl, hheader, hread, hposition, hahead ▸ htotal, hahead⟩

end Framer

end CoinWire
