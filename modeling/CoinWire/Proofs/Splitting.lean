import Mathlib
import CoinWire.Proofs.Magic

/-!
# Splitting a stream

The buffer of a decoder is taken apart in the same way whether the bytes come at once or in chunks.
One step is stable: an outcome that was reached stays, with what arrived later behind what was left,
and where more bytes were needed, what the step dropped is not missed later. By induction on the
bytes the messages of a stream, the error that ends it and the bytes that wait do not depend on the
cuts. What waits is the start of one frame, or at most three bytes that may start a magic.
-/

namespace CoinWire.Framer

variable (framer : Framer) {buffer rest : Bytes}

/-! ## One step -/

/-- The header of the frame at the front of a buffer, whose bytes have arrived. -/
def headerAt (buffer : Bytes) : Except CodecError FrameHeader :=
  framer.readHeader.answer (Reader.ofBytes ((buffer.take framer.overhead).drop 4))

/-- Number of bytes of the frame with the header. -/
def frameSize (header : FrameHeader) : Nat :=
  framer.overhead + header.length.toNat

/-- Takes a frame that has all arrived, with its header read. -/
def takeWhole (header : FrameHeader) : Access Bytes (Option Message) := fun buffer ↦
  match framer.decodePayload header
    ((buffer.take (framer.frameSize header)).drop framer.overhead) with
  | .ok message => .ok (some message) (buffer.drop (framer.frameSize header))
  | .error e => .error e (buffer.drop (framer.frameSize header))

/-- Takes the frame at the front of a buffer that begins with the magic. -/
def takeFrame : Access Bytes (Option Message) := fun buffer ↦
  if framer.overhead ≤ buffer.length then
    match framer.headerAt buffer with
    | .error e => .error e buffer
    | .ok header =>
      if framer.frameSize header ≤ buffer.length then framer.takeWhole header buffer
      else .ok none buffer
  else .ok none buffer

theorem decode_apply (buffer : Bytes) :
    framer.decode buffer =
      match framer.findMagic? buffer with
      | none => .ok none (buffer.drop (buffer.length - 3))
      | some index => framer.takeFrame (buffer.drop index) := by
  unfold decode
  rw [Access.bind_apply]
  change (match framer.findMagic? buffer with
    | none => _
    | some index => _ : Access Bytes (Option Message)) buffer = _
  cases framer.findMagic? buffer with
  | none => rfl
  | some index =>
    dsimp only
    unfold takeFrame takeWhole frameSize headerAt
    generalize buffer.drop index = front
    simp only [← Bytes.holds_iff]
    rw [Access.bind_apply]
    change (if _ then _ else _ : Access Bytes (Option Message)) front = _
    split_ifs
    · rw [Access.bind_apply, Access.ofExcept_apply]
      cases framer.readHeader.answer _ with
      | error e => rfl
      | ok header =>
        dsimp only
        split_ifs
        · rw [Access.bind_apply]
          change ((MonadExcept.ofExcept _ : Access Bytes Message) >>= _ :
            Access Bytes (Option Message)) _ = _
          rw [Access.bind_apply, Access.ofExcept_apply]
          cases framer.decodePayload header _ <;> rfl
        · rfl
    · rfl

/-- Bytes in front of the first magic have no influence. -/
theorem decode_drop {count : Nat} (hcount : count ≤ buffer.length - 3)
    (h : ∀ offset < count, ¬framer.Opens (buffer.drop offset)) :
    framer.decode (buffer.drop count) = framer.decode buffer := by
  rw [decode_apply, decode_apply, framer.findMagic?_drop h]
  cases framer.findMagic? (buffer.drop count) with
  | none =>
    have hsum : count + ((buffer.drop count).length - 3) = buffer.length - 3 := by
      rw [List.length_drop]
      omega
    dsimp only [Option.map_none]
    rw [List.drop_drop, hsum]
  | some index =>
    dsimp only [Option.map_some]
    rw [List.drop_drop, Nat.add_comm count index]

theorem headerAt_append (h : framer.overhead ≤ buffer.length) (more : Bytes) :
    framer.headerAt (buffer ++ more) = framer.headerAt buffer := by
  unfold headerAt
  rw [List.take_append_of_le_length h]

/-- The frame at the front has not all arrived, or its header has not. -/
def Partial (buffer : Bytes) : Prop :=
  buffer.length < framer.overhead ∨
    ∃ header, framer.headerAt buffer = .ok header ∧ buffer.length < framer.frameSize header

theorem takeFrame_of_partial (h : framer.Partial buffer) :
    framer.takeFrame buffer = .ok none buffer := by
  unfold takeFrame
  by_cases hoverhead : framer.overhead ≤ buffer.length
  · obtain hshort | ⟨header, hheader, hshort⟩ := h
    · omega
    · rw [if_pos hoverhead, hheader]
      exact if_neg (Nat.not_le.2 hshort)
  · exact if_neg hoverhead

theorem takeFrame_of_refused {e : CodecError} (hoverhead : framer.overhead ≤ buffer.length)
    (hheader : framer.headerAt buffer = .error e) : framer.takeFrame buffer = .error e buffer := by
  unfold takeFrame
  rw [if_pos hoverhead, hheader]

theorem takeFrame_of_whole {header : FrameHeader} (hheader : framer.headerAt buffer = .ok header)
    (hsize : framer.frameSize header ≤ buffer.length) :
    framer.takeFrame buffer = framer.takeWhole header buffer := by
  have hoverhead : framer.overhead ≤ buffer.length := (Nat.le_add_right _ _).trans hsize
  unfold takeFrame
  rw [if_pos hoverhead, hheader]
  exact if_pos hsize

/-- A part of the frame is missing, or its header is refused, or it is taken out whole. -/
theorem takeFrame_cases (buffer : Bytes) :
    (framer.Partial buffer ∧ framer.takeFrame buffer = .ok none buffer) ∨
      (∃ e, framer.overhead ≤ buffer.length ∧ framer.headerAt buffer = .error e ∧
        framer.takeFrame buffer = .error e buffer) ∨
      ∃ header, framer.frameSize header ≤ buffer.length ∧ framer.headerAt buffer = .ok header ∧
        framer.takeFrame buffer = framer.takeWhole header buffer := by
  by_cases hpartial : framer.Partial buffer
  · exact .inl ⟨hpartial, framer.takeFrame_of_partial hpartial⟩
  · obtain ⟨hoverhead, hwhole⟩ := not_or.1 hpartial
    have hoverhead := Nat.le_of_not_lt hoverhead
    cases hheader : framer.headerAt buffer with
    | error e =>
      exact .inr (.inl ⟨e, hoverhead, rfl, framer.takeFrame_of_refused hoverhead hheader⟩)
    | ok header =>
      have hsize : framer.frameSize header ≤ buffer.length :=
        Nat.le_of_not_lt fun hshort ↦ hwhole ⟨header, hheader, hshort⟩
      exact .inr (.inr ⟨header, hsize, rfl, framer.takeFrame_of_whole hheader hsize⟩)

/-- Nothing is taken out of the buffer as long as a part of the frame is missing. -/
theorem takeFrame_eq_none (h : framer.takeFrame buffer = .ok none rest) :
    rest = buffer ∧ framer.Partial buffer := by
  obtain ⟨hpartial, htake⟩ | ⟨e, -, -, htake⟩ | ⟨header, -, -, htake⟩ :=
    framer.takeFrame_cases buffer
  · rw [htake] at h
    injection h with _ hrest
    exact ⟨hrest.symm, hpartial⟩
  · rw [htake] at h
    contradiction
  · rw [htake] at h
    unfold takeWhole at h
    split at h <;> cases h

/-- A frame that was taken, or refused, is taken or refused in the same way when more follows. -/
theorem takeFrame_append (h : ∀ rest, framer.takeFrame buffer ≠ .ok none rest) (more : Bytes) :
    framer.takeFrame (buffer ++ more) =
      Access.mapState (· ++ more) (framer.takeFrame buffer) := by
  have hlonger : buffer.length ≤ (buffer ++ more).length := by simp
  obtain ⟨-, htake⟩ | ⟨e, hoverhead, hheader, htake⟩ | ⟨header, hsize, hheader, htake⟩ :=
    framer.takeFrame_cases buffer
  · exact absurd htake (h buffer)
  · rw [← framer.headerAt_append hoverhead more] at hheader
    rw [htake, framer.takeFrame_of_refused (hoverhead.trans hlonger) hheader]
    rfl
  · have hoverhead : framer.overhead ≤ buffer.length := (Nat.le_add_right _ _).trans hsize
    rw [← framer.headerAt_append hoverhead more] at hheader
    rw [htake, framer.takeFrame_of_whole hheader (hsize.trans hlonger)]
    unfold takeWhole
    rw [List.take_append_of_le_length hsize, List.drop_append_of_le_length hsize]
    cases framer.decodePayload header _ <;> rfl

/-- What is left after a frame was taken is shorter. -/
theorem length_lt_of_takeFrame {message : Message}
    (h : framer.takeFrame buffer = .ok (some message) rest) : rest.length < buffer.length := by
  obtain ⟨-, htake⟩ | ⟨e, -, -, htake⟩ | ⟨header, hsize, -, htake⟩ :=
    framer.takeFrame_cases buffer
  · rw [htake] at h
    injection h with hnone
    contradiction
  · rw [htake] at h
    contradiction
  · have hpos : 0 < framer.frameSize header := by
      unfold frameSize overhead
      split <;> omega
    rw [htake] at h
    unfold takeWhole at h
    split at h
    · injection h with _ hrest
      rw [← hrest, List.length_drop]
      omega
    · contradiction

/-- The buffer holds at most three bytes, too few for a magic, or begins with the magic of a frame
that has not all arrived. -/
def Waits (buffer : Bytes) : Prop :=
  (buffer.length ≤ 3 ∧ framer.findMagic? buffer = none) ∨
    (framer.Opens buffer ∧ framer.Partial buffer)

theorem waits_of_decode (h : framer.decode buffer = .ok none rest) : framer.Waits rest := by
  rw [decode_apply] at h
  cases hfound : framer.findMagic? buffer with
  | none =>
    rw [hfound] at h
    injection h with _ hrest
    subst hrest
    refine .inl ⟨?_, ?_⟩
    · rw [List.length_drop]
      omega
    · rw [findMagic?_eq_none_iff] at hfound ⊢
      intro offset
      rw [List.drop_drop]
      exact hfound _
  | some index =>
    rw [hfound] at h
    obtain ⟨hrest, hpartial⟩ := framer.takeFrame_eq_none h
    subst hrest
    exact .inr ⟨(framer.findMagic?_eq_some_iff.1 hfound).1, hpartial⟩

/-- What a step dropped while it waited for more bytes is not missed by the next one. -/
theorem decode_append_of_waiting (h : framer.decode buffer = .ok none rest) (more : Bytes) :
    framer.decode (rest ++ more) = framer.decode (buffer ++ more) := by
  rw [decode_apply] at h
  cases hfound : framer.findMagic? buffer with
  | none =>
    rw [hfound] at h
    injection h with _ hrest
    have hle : buffer.length - 3 ≤ buffer.length := Nat.sub_le _ _
    have hdrop : framer.decode ((buffer ++ more).drop (buffer.length - 3)) =
        framer.decode (buffer ++ more) :=
      framer.decode_drop (by simp; omega) fun _ ↦ framer.not_opens_drop_append hfound more
    rw [← hdrop, List.drop_append_of_le_length hle, hrest]
  | some index =>
    rw [hfound] at h
    obtain ⟨hrest, -⟩ := framer.takeFrame_eq_none h
    have hroom := framer.add_four_le_of_findMagic? hfound
    have hmore := framer.findMagic?_append hfound more
    have hdrop : framer.decode ((buffer ++ more).drop index) = framer.decode (buffer ++ more) :=
      framer.decode_drop (by simp; omega) (framer.findMagic?_eq_some_iff.1 hmore).2
    rw [← hdrop, List.drop_append_of_le_length (by omega), hrest]

/-- A message or an error that was reached stays, and what follows is left behind it. -/
theorem decode_append (h : ∀ rest, framer.decode buffer ≠ .ok none rest) (more : Bytes) :
    framer.decode (buffer ++ more) = Access.mapState (· ++ more) (framer.decode buffer) := by
  rw [decode_apply] at h
  rw [decode_apply, decode_apply]
  cases hfound : framer.findMagic? buffer with
  | none =>
    rw [hfound] at h
    exact absurd rfl (h _)
  | some index =>
    have hroom := framer.add_four_le_of_findMagic? hfound
    rw [hfound] at h
    rw [framer.findMagic?_append hfound more]
    dsimp only at h ⊢
    rw [List.drop_append_of_le_length (by omega)]
    exact framer.takeFrame_append h more

theorem length_lt_of_decode {message : Message}
    (h : framer.decode buffer = .ok (some message) rest) : rest.length < buffer.length := by
  rw [decode_apply] at h
  cases hfound : framer.findMagic? buffer with
  | none =>
    rw [hfound] at h
    injection h with hnone
    contradiction
  | some index =>
    rw [hfound] at h
    have hlt := framer.length_lt_of_takeFrame h
    rw [List.length_drop] at hlt
    omega

/-! ## Runs -/

end CoinWire.Framer

namespace CoinWire

/-- The messages that came out of a stream, and what it came to: the first error, at which it is
given up, or the bytes that wait for more. -/
structure Delivery where
  messages : List Message
  ending : Except CodecError Bytes

/-- Goes on with the bytes that wait, unless there was an error. -/
def Delivery.andThen (delivery : Delivery) (next : Bytes → Delivery) : Delivery :=
  match delivery.ending with
  | .ok rest => ⟨delivery.messages ++ (next rest).messages, (next rest).ending⟩
  | .error e => ⟨delivery.messages, .error e⟩

namespace Framer

variable (framer : Framer) {buffer rest : Bytes}

/-- Takes messages out of the buffer until more bytes are needed or there is an error. -/
def drain (buffer : Bytes) : Delivery :=
  match h : framer.decode buffer with
  | .ok none rest => ⟨[], .ok rest⟩
  | .ok (some message) rest =>
    have := framer.length_lt_of_decode h
    let later := drain rest
    ⟨message :: later.messages, later.ending⟩
  | .error e _ => ⟨[], .error e⟩
termination_by buffer.length

/-- Puts one chunk after the other behind the bytes that wait, and drains the buffer after each. -/
def feed (buffer : Bytes) : List Bytes → Delivery
  | [] => ⟨[], .ok buffer⟩
  | chunk :: chunks => (framer.drain (buffer ++ chunk)).andThen fun rest ↦ feed rest chunks

theorem drain_apply (buffer : Bytes) :
    framer.drain buffer =
      match framer.decode buffer with
      | .ok none rest => ⟨[], .ok rest⟩
      | .ok (some message) rest =>
        ⟨message :: (framer.drain rest).messages, (framer.drain rest).ending⟩
      | .error e _ => ⟨[], .error e⟩ := by
  rw [drain]
  split
  · rename_i h
    rw [h]
  · rename_i h
    dsimp only
    rw [h]
  · rename_i h
    rw [h]

/-- A buffer that was drained has nothing more to give. -/
theorem decode_of_drain (h : (framer.drain buffer).ending = .ok rest) :
    framer.decode rest = .ok none rest := by
  induction hlength : buffer.length using Nat.strongRecOn generalizing buffer with
  | _ length ih =>
    rw [drain_apply] at h
    cases hdecode : framer.decode buffer with
    | error e left =>
      rw [hdecode] at h
      contradiction
    | ok found left =>
      rw [hdecode] at h
      cases found with
      | none =>
        injection h with hleft
        subst hleft
        have hstill := framer.decode_append_of_waiting hdecode []
        rwa [List.append_nil, List.append_nil, hdecode] at hstill
      | some message =>
        have hlt := framer.length_lt_of_decode hdecode
        exact ih left.length (hlength ▸ hlt) h rfl

/-- Draining all bytes is draining the first of them and going on with the rest. -/
theorem drain_append (buffer more : Bytes) :
    framer.drain (buffer ++ more) =
      (framer.drain buffer).andThen fun rest ↦ framer.drain (rest ++ more) := by
  induction hlength : buffer.length using Nat.strongRecOn generalizing buffer with
  | _ length ih =>
    cases hdecode : framer.decode buffer with
    | error e left =>
      have hsettled (rest : Bytes) : framer.decode buffer ≠ .ok none rest := by simp [hdecode]
      have hmore := framer.decode_append hsettled more
      rw [hdecode] at hmore
      rw [framer.drain_apply buffer, framer.drain_apply (buffer ++ more), hdecode, hmore]
      rfl
    | ok found left =>
      cases found with
      | none =>
        have hsame := framer.decode_append_of_waiting hdecode more
        rw [framer.drain_apply buffer, hdecode]
        calc
          framer.drain (buffer ++ more) = framer.drain (left ++ more) := by
            rw [drain_apply, drain_apply, hsame]
          _ = _ := rfl
      | some message =>
        have hsettled (rest : Bytes) : framer.decode buffer ≠ .ok none rest := by simp [hdecode]
        have hmore := framer.decode_append hsettled more
        have hlt := framer.length_lt_of_decode hdecode
        rw [hdecode] at hmore
        rw [framer.drain_apply buffer, framer.drain_apply (buffer ++ more), hdecode, hmore]
        dsimp only [Access.mapState]
        rw [ih left.length (hlength ▸ hlt) left rfl]
        unfold Delivery.andThen
        cases (framer.drain left).ending <;> rfl

/-- A stream is split into the same messages however it is cut into chunks. -/
theorem feed_eq_drain (hbuffer : framer.decode buffer = .ok none buffer) (chunks : List Bytes) :
    framer.feed buffer chunks = framer.drain (buffer ++ chunks.flatten) := by
  induction chunks generalizing buffer with
  | nil =>
    rw [List.flatten_nil, List.append_nil, drain_apply, hbuffer]
    rfl
  | cons chunk chunks ih =>
    rw [List.flatten_cons, ← List.append_assoc, drain_append, feed]
    unfold Delivery.andThen
    cases hending : (framer.drain (buffer ++ chunk)).ending with
    | error e => rfl
    | ok rest =>
      dsimp only
      rw [ih (framer.decode_of_drain hending)]

/-- Messages, first error and bytes left are those of the stream, and every wait for more bytes is
one for a magic or for the rest of a frame. -/
theorem feed_eq_of_flatten_eq (chunks chunks' : List Bytes)
    (h : chunks.flatten = chunks'.flatten) :
    framer.feed [] chunks = framer.feed [] chunks' ∧
      ∀ buffer rest, framer.decode buffer = .ok none rest → framer.Waits rest := by
  have hempty : framer.decode [] = .ok none [] := by
    rw [decode_apply]
    rfl
  refine ⟨?_, fun buffer rest ↦ framer.waits_of_decode⟩
  calc
    framer.feed [] chunks = framer.drain ([] ++ chunks.flatten) :=
      framer.feed_eq_drain hempty chunks
    _ = framer.drain ([] ++ chunks'.flatten) := by rw [h]
    _ = framer.feed [] chunks' := (framer.feed_eq_drain hempty chunks').symm

/-- Five bytes of a magic of four equal ones, cut at two places. -/
theorem feed_eq_of_cut_magic :
    [[0xDE, 0xAA, 0xAA], [0xAA, 0xAA, 0xAA, 0x76]].flatten =
        [[0xDE], [0xAA, 0xAA, 0xAA, 0xAA, 0xAA, (0x76 : UInt8)], []].flatten ∧
      (new Network.paycoin.params).feed [] [[0xDE, 0xAA, 0xAA], [0xAA, 0xAA, 0xAA, 0x76]] =
        (new Network.paycoin.params).feed [] [[0xDE], [0xAA, 0xAA, 0xAA, 0xAA, 0xAA, 0x76], []] ∧
      ∀ buffer rest, (new Network.paycoin.params).decode buffer = .ok none rest →
        (new Network.paycoin.params).Waits rest :=
  ⟨rfl, feed_eq_of_flatten_eq _ _ _ rfl⟩

end Framer

end CoinWire
