import Mathlib
import CoinWire.Proofs.NextFrame

/-!
# Reading on

A read that failed may succeed once more bytes have arrived. It does so exactly where no magic was
found yet, or where the bytes from the magic on are the start of a frame whose payload is decoded.
Every such failure says that bytes are missing. The converse fails: a payload that is too short for
its command says so as well, and it is as long as its header announces for good.
-/

namespace CoinWire

/-- The same cursor, with more bytes at the end. -/
def Reader.extend (more : Bytes) (reader : Reader) : Reader :=
  { reader with ahead := reader.ahead ++ more }

@[simp]
theorem Reader.ahead_extend (more : Bytes) (reader : Reader) :
    (reader.extend more).ahead = reader.ahead ++ more := rfl

namespace Framer

variable {framer : Framer} {front : Bytes} {reader : Reader} {index : Nat} {header : FrameHeader}
  {payload : Bytes} {message : Message}

/-! ## Whole frames -/

/-- Where a whole frame lies ahead and nothing behind it, its payload decides on the answer. -/
theorem read_frame (hindex : framer.findMagic? reader.ahead = some index)
    (hannounces : framer.Announces header payload)
    (hfront : reader.ahead.drop index = framer.params.magic.toBytes ++ header.wire ++ payload) :
    framer.read.answer reader = framer.decodePayload header payload := by
  have hhead := length_magic_append_wire hannounces
  have hlength : (reader.ahead.drop index).length = framer.frameSize header := by
    rw [hfront, List.length_append, hhead, frameSize, hannounces.length]
  have hheader : framer.headerAt (reader.ahead.drop index) = .ok header := by
    rw [hfront, headerAt_frame hannounces]
  have hanswer := framer.answer_of_whole reader hindex hheader hlength.ge
  rwa [List.take_of_length_le hlength.le, hfront, List.drop_left' hhead] at hanswer

/-- The bytes of a frame that has all arrived are those its header and its payload have. -/
theorem take_frameSize (hopens : framer.Opens front) (hheader : framer.headerAt front = .ok header)
    (hsize : framer.frameSize header ≤ front.length) :
    framer.Announces header ((front.take (framer.frameSize header)).drop framer.overhead) ∧
      front.take (framer.frameSize header) = framer.params.magic.toBytes ++ header.wire ++
        (front.take (framer.frameSize header)).drop framer.overhead := by
  have haccepts := FrameHeader.accepts_read framer.params.maxMessageSize framer.checksum
  have hoverhead := framer.twenty_le_overhead
  obtain ⟨after, hread⟩ := Access.answer_eq_ok_iff.1 hheader
  obtain ⟨⟨hlimit, hchecksum⟩, hwire, -⟩ := haccepts.eq_ok_iff.1 hread
  have hannounces : framer.Announces header
      ((front.take (framer.frameSize header)).drop framer.overhead) := by
    refine ⟨?_, hlimit, hchecksum⟩
    rw [List.length_drop, List.length_take_of_le hsize, frameSize, Nat.add_sub_cancel_left]
  have hhead := length_magic_append_wire hannounces
  have hprefix : framer.params.magic.toBytes ++ header.wire <+: front := by
    rw [List.append_isPrefix_iff, framer.length_magic]
    refine ⟨hopens, hwire.trans ?_⟩
    rw [Reader.ahead_ofBytes, List.drop_take]
    exact List.take_prefix _ _
  refine ⟨hannounces, ?_⟩
  have hfront : framer.params.magic.toBytes ++ header.wire = front.take framer.overhead := by
    rw [← hhead]
    exact List.prefix_iff_eq_take.1 hprefix
  have hmin : min framer.overhead (framer.frameSize header) = framer.overhead :=
    min_eq_left (Nat.le_add_right _ _)
  calc
    front.take (framer.frameSize header) =
        (front.take (framer.frameSize header)).take framer.overhead ++
          (front.take (framer.frameSize header)).drop framer.overhead :=
      (List.take_append_drop _ _).symm
    _ = _ := by rw [List.take_take, hmin, hfront]

/-- A read that succeeds finds a frame that has all arrived. -/
theorem exists_whole_of_answer (h : framer.read.answer reader = .ok message) :
    ∃ index header, framer.findMagic? reader.ahead = some index ∧
      framer.headerAt (reader.ahead.drop index) = .ok header ∧
      framer.frameSize header ≤ (reader.ahead.drop index).length ∧
      framer.decodePayload header (((reader.ahead.drop index).take
        (framer.frameSize header)).drop framer.overhead) = .ok message := by
  obtain ⟨-, hanswer⟩ | ⟨index, hindex, ⟨-, hanswer⟩ | ⟨-, needed, remaining, hanswer⟩ |
    ⟨header, hheader, hsize, hanswer⟩⟩ := framer.answer_read_cases reader
  · rw [hanswer] at h
    contradiction
  · rw [hanswer] at h
    contradiction
  · rw [hanswer] at h
    contradiction
  · exact ⟨index, header, hindex, hheader, hsize, hanswer.symm.trans h⟩

/-! ## More bytes -/

/-- More bytes do not move the first magic. -/
theorem drop_extend (hindex : framer.findMagic? reader.ahead = some index) (more : Bytes) :
    framer.findMagic? (reader.extend more).ahead = some index ∧
      (reader.extend more).ahead.drop index = reader.ahead.drop index ++ more := by
  have hroom := framer.add_four_le_of_findMagic? hindex
  refine ⟨framer.findMagic?_append hindex more, ?_⟩
  rw [Reader.ahead_extend, List.drop_append_of_le_length (by omega)]

/-- Once a frame has all arrived, what follows it does not matter. -/
theorem answer_extend_of_whole (hindex : framer.findMagic? reader.ahead = some index)
    (hheader : framer.headerAt (reader.ahead.drop index) = .ok header)
    (hsize : framer.frameSize header ≤ (reader.ahead.drop index).length) (more : Bytes) :
    framer.read.answer (reader.extend more) = framer.read.answer reader := by
  obtain ⟨hindex', hfront⟩ := drop_extend hindex more
  have hoverhead : framer.overhead ≤ (reader.ahead.drop index).length :=
    (Nat.le_add_right _ _).trans hsize
  have hheader' : framer.headerAt ((reader.extend more).ahead.drop index) = .ok header := by
    rw [hfront, framer.headerAt_append hoverhead, hheader]
  have hsize' : framer.frameSize header ≤ ((reader.extend more).ahead.drop index).length := by
    rw [hfront, List.length_append]
    exact hsize.trans (Nat.le_add_right _ _)
  rw [framer.answer_of_whole _ hindex' hheader' hsize', hfront,
    List.take_append_of_le_length hsize, framer.answer_of_whole _ hindex hheader hsize]

/-- A frame that announces too much is refused whatever follows. -/
theorem answer_extend_of_refused (hindex : framer.findMagic? reader.ahead = some index)
    (h : framer.Refused (reader.ahead.drop index)) (more : Bytes) :
    framer.read.answer (reader.extend more) =
      .error (framer.refusal (reader.ahead.drop index)) := by
  obtain ⟨hindex', hfront⟩ := drop_extend hindex more
  obtain ⟨hrefused, hrefusal⟩ := framer.refused_append h more
  rw [← hfront] at hrefused
  obtain ⟨after, hread⟩ := framer.read_of_refused _ hindex' hrefused
  rw [Access.answer_eq_error hread, hfront, hrefusal]

/-! ## Completion -/

/-- The bytes are the start of a frame whose payload is decoded. -/
def Starts (framer : Framer) (front : Bytes) : Prop :=
  ∃ header payload message, framer.Announces header payload ∧
    framer.decodePayload header payload = .ok message ∧
    front <+: framer.params.magic.toBytes ++ header.wire ++ payload

/-- Some bytes at the end make the read succeed. -/
def Completes (framer : Framer) (reader : Reader) : Prop :=
  ∃ more message, framer.read.answer (reader.extend more) = .ok message

/-- The start of a frame can be gone on with to the end of the frame. -/
theorem completes_of_starts (hindex : framer.findMagic? reader.ahead = some index)
    (h : framer.Starts (reader.ahead.drop index)) : framer.Completes reader := by
  obtain ⟨header, payload, message, hannounces, hpayload, more, hmore⟩ := h
  obtain ⟨hindex', hfront⟩ := drop_extend hindex more
  exact ⟨more, message, (read_frame hindex' hannounces (hfront.trans hmore)).trans hpayload⟩

/-- What a completed read finds from the magic on is a frame, and the bytes that were there are its
start: had the frame all arrived before, it would have been read without the new bytes. -/
theorem starts_of_completes {e : CodecError} (herror : framer.read.answer reader = .error e)
    (hindex : framer.findMagic? reader.ahead = some index) (h : framer.Completes reader) :
    framer.Starts (reader.ahead.drop index) := by
  obtain ⟨more, message, hanswer⟩ := h
  obtain ⟨index', header, hindex', hheader, hsize, hpayload⟩ := exists_whole_of_answer hanswer
  obtain ⟨hsame, hfront⟩ := drop_extend hindex more
  obtain rfl : index = index' := Option.some.inj (hsame.symm.trans hindex')
  have hopens := (framer.findMagic?_eq_some_iff.1 hindex').1
  obtain ⟨hannounces, hframe⟩ := take_frameSize hopens hheader hsize
  refine ⟨header, _, message, hannounces, hpayload, ?_⟩
  have hshort : (reader.ahead.drop index).length < framer.frameSize header := by
    by_contra hlong
    have hwhole := Nat.le_of_not_lt hlong
    rw [hfront, framer.headerAt_append ((Nat.le_add_right _ _).trans hwhole)] at hheader
    rw [answer_extend_of_whole hindex hheader hwhole, herror] at hanswer
    contradiction
  rw [← hframe, hfront]
  apply List.prefix_of_prefix_length_le (List.prefix_append _ more) (List.take_prefix _ _)
  rw [hfront] at hsize
  rw [List.length_take_of_le hsize]
  exact hshort.le

/-- Where no magic was found, one can be completed so that nothing stands behind it. It ends behind
the bytes that are there, or it would have been found in them. -/
theorem exists_completed_magic {bytes : Bytes} (h : framer.findMagic? bytes = none) :
    ∃ more index, framer.findMagic? (bytes ++ more) = some index ∧
      (bytes ++ more).drop index = framer.params.magic.toBytes := by
  have hbehind : framer.Opens ((bytes ++ framer.params.magic.toBytes).drop bytes.length) := by
    rw [List.drop_left]
    exact List.prefix_rfl
  have hfound : framer.findMagic? (bytes ++ framer.params.magic.toBytes) ≠ none :=
    fun hnone ↦ framer.findMagic?_eq_none_iff.1 hnone _ hbehind
  obtain ⟨index, hindex⟩ := Option.ne_none_iff_exists'.1 hfound
  have hend : bytes.length < index + 4 := by
    by_contra hinside
    have hopens := (framer.findMagic?_eq_some_iff.1 hindex).1
    rw [framer.opens_drop_append_iff (Nat.le_of_not_lt hinside)] at hopens
    exact framer.findMagic?_eq_none_iff.1 h index hopens
  have hfront : (bytes ++ framer.params.magic.toBytes).take (index + 4) =
      bytes ++ framer.params.magic.toBytes.take (index + 4 - bytes.length) := by
    rw [List.take_append, List.take_of_length_le hend.le]
  have htake := framer.findMagic?_take hindex
  rw [hfront] at htake
  exact ⟨_, index, htake⟩

/-- A message without payload can follow any magic. -/
theorem completes_of_none (hparsers : framer.parsers = PayloadParser.defaults)
    (h : framer.findMagic? reader.ahead = none) : framer.Completes reader := by
  have hparser : framer.parser? "verack" = some (PayloadParser.ofRead fun _ ↦ return .verack) := by
    rw [parser?, hparsers]
    rfl
  have hcarries : FrameHeader.Carries "verack" := by decide +kernel
  have hempty : ([] : Bytes).length ≤ framer.params.maxMessageSize.toNat := Nat.zero_le _
  obtain ⟨header, hheads, -⟩ := exists_heads hcarries hempty
  obtain ⟨more, index, hindex, hdrop⟩ := exists_completed_magic h
  have hroom := framer.add_four_le_of_findMagic? hindex
  have hahead : (reader.extend (more ++ header.wire)).ahead =
      reader.ahead ++ more ++ header.wire := by
    rw [Reader.ahead_extend, List.append_assoc]
  have hindex' : framer.findMagic? (reader.extend (more ++ header.wire)).ahead = some index := by
    rw [hahead]
    exact framer.findMagic?_append hindex _
  have hfront : (reader.extend (more ++ header.wire)).ahead.drop index =
      framer.params.magic.toBytes ++ header.wire ++ [] := by
    rw [hahead, List.drop_append_of_le_length (by omega), hdrop, List.append_nil]
  refine ⟨more ++ header.wire, .verack, ?_⟩
  rw [read_frame hindex' hheads.announces hfront, decodePayload_of_heads hheads, hparser]
  rfl

/-- Only errors that say that bytes are missing can be gone once more bytes have arrived. -/
theorem isUnderrun_of_completes {e : CodecError} (herror : framer.read.answer reader = .error e)
    (h : framer.Completes reader) : e.isUnderrun = true := by
  obtain ⟨more, message, hcompleted⟩ := h
  obtain ⟨-, hanswer⟩ | ⟨index, hindex, ⟨hrefused, -⟩ | ⟨-, needed, remaining, hanswer⟩ |
    ⟨header, hheader, hsize, -⟩⟩ := framer.answer_read_cases reader
  · rw [hanswer] at herror
    injection herror with he
    rw [← he]
    rfl
  · rw [answer_extend_of_refused hindex hrefused] at hcompleted
    contradiction
  · rw [hanswer] at herror
    injection herror with he
    rw [← he]
    rfl
  · rw [answer_extend_of_whole hindex hheader hsize, herror] at hcompleted
    contradiction

/-- A read that failed succeeds with more bytes exactly where no magic was found, or where the
bytes from the magic on start a frame whose payload is decoded. Its error says so. Where the frame
had all arrived, the error stays. -/
theorem completes_iff (hparsers : framer.parsers = PayloadParser.defaults) {e : CodecError}
    (herror : framer.read.answer reader = .error e) :
    (framer.Completes reader ↔ framer.findMagic? reader.ahead = none ∨
        ∃ index, framer.findMagic? reader.ahead = some index ∧
          framer.Starts (reader.ahead.drop index)) ∧
      (framer.Completes reader → e.isUnderrun = true) ∧
      ∀ index header, framer.findMagic? reader.ahead = some index →
        framer.headerAt (reader.ahead.drop index) = .ok header →
        framer.frameSize header ≤ (reader.ahead.drop index).length →
        ∀ more, framer.read.answer (reader.extend more) = .error e := by
  refine ⟨⟨?_, ?_⟩, isUnderrun_of_completes herror, ?_⟩
  · intro h
    cases hindex : framer.findMagic? reader.ahead with
    | none => exact .inl rfl
    | some index => exact .inr ⟨index, rfl, starts_of_completes herror hindex h⟩
  · rintro (hnone | ⟨index, hindex, hstarts⟩)
    · exact completes_of_none hparsers hnone
    · exact completes_of_starts hindex hstarts
  · intro index header hindex hheader hsize more
    rw [answer_extend_of_whole hindex hheader hsize, herror]

/-- A whole frame with a payload of two bytes, of which its command needs eight. -/
def shortPong : Bytes :=
  [0x0B, 0x11, 0x09, 0x07, 0x70, 0x6F, 0x6E, 0x67, 0, 0, 0, 0, 0, 0, 0, 0, 2, 0, 0, 0, 1, 2]

/-- The payload is read as a number of eight bytes, and it has two. -/
theorem answer_shortPong :
    (new Network.unitTest.params).read.answer (Reader.ofBytes shortPong) =
      .error (.underrun 8 2) := by
  cbv

/-- The frame of the command `pong` with the payload `01 02` has all arrived and fails for want of
six bytes. -/
theorem completes_iff_shortPong :
    let framer := new Network.unitTest.params
    let reader := Reader.ofBytes shortPong
    framer.parsers = PayloadParser.defaults ∧
      framer.read.answer reader = .error (.underrun 8 2) ∧
      (framer.Completes reader ↔ framer.findMagic? reader.ahead = none ∨
        ∃ index, framer.findMagic? reader.ahead = some index ∧
          framer.Starts (reader.ahead.drop index)) ∧
      (framer.Completes reader → CodecError.isUnderrun (.underrun 8 2) = true) ∧
      ∀ index header, framer.findMagic? reader.ahead = some index →
        framer.headerAt (reader.ahead.drop index) = .ok header →
        framer.frameSize header ≤ (reader.ahead.drop index).length →
        ∀ more, framer.read.answer (reader.extend more) = .error (.underrun 8 2) :=
  ⟨rfl, answer_shortPong, completes_iff rfl answer_shortPong⟩

/-- Not every underrun can be completed: the frame of the command `pong` with the payload `01 02`
fails as one, and whatever follows it does not change that. -/
theorem underrun_without_completion :
    ¬∀ (framer : Framer) (reader : Reader) (e : CodecError),
      framer.parsers = PayloadParser.defaults → framer.read.answer reader = .error e →
        e.isUnderrun = true → framer.Completes reader := by
  intro h
  obtain ⟨more, message, hanswer⟩ :=
    h (new Network.unitTest.params) (Reader.ofBytes shortPong) _ rfl answer_shortPong rfl
  have hindex : (new Network.unitTest.params).findMagic? shortPong = some 0 := by decide
  have hheader : (new Network.unitTest.params).headerAt shortPong =
      .ok ⟨⟨[0x70, 0x6F, 0x6E, 0x67, 0, 0, 0, 0, 0, 0, 0, 0], rfl⟩, 2, none⟩ := rfl
  rw [answer_extend_of_whole hindex hheader (by decide), answer_shortPong] at hanswer
  contradiction

end Framer

end CoinWire
