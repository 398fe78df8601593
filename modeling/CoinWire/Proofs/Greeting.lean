import Mathlib
import CoinWire.Proofs.Fields
import CoinWire.Proofs.Utf8

/-!
# Greetings

Every greeting begins with the same fields. After them old peers stop, or after the user agent or
the height, and a user agent that is no text is read all the same. So different payloads may be read
as one greeting, and only one of them is what it is written as: the one with every field, an agent
that is text and a last byte of zero or one.
-/

namespace CoinWire

open Read

namespace Version

/-- The fields that every peer sends. -/
structure Front where
  version : UInt32
  services : UInt64
  time : Int64
  receiver : PeerAddress
  sender : PeerAddress
  nonce : UInt64

namespace Front

/-- Addresses in a greeting carry no time. -/
def Fits (front : Front) : Prop :=
  front.receiver.time = none ∧ front.sender.time = none

def wire (front : Front) : Bytes :=
  Bytes.ofUInt32 front.version ++ Bytes.ofUInt64 front.services ++ Bytes.ofInt64 front.time ++
    front.receiver.wire ++ front.sender.wire ++ Bytes.ofUInt64 front.nonce

protected def read : Read Front := do
  let version ← Read.uint32
  let services ← Read.uint64
  let time ← Read.int64
  let receiver ← PeerAddress.read false
  let sender ← PeerAddress.read false
  let nonce ← Read.uint64
  return ⟨version, services, time, receiver, sender, nonce⟩

/-- The reader of fronts accepts the encodings of fronts that fit and nothing else. -/
theorem accepts_read : Accepts Front.read id Fits wire := by
  have h := accepts_uint32.bind fun version ↦ accepts_uint64.bind fun services ↦
    accepts_int64.bind fun time ↦ (PeerAddress.accepts_read false).bind fun receiver ↦
    (PeerAddress.accepts_read false).bind fun sender ↦ accepts_uint64.bind fun nonce ↦
    Accepts.pure (Front.mk version services time receiver sender nonce)
  apply h.reindex fun front ↦ (front.version, front.services, front.time, front.receiver,
    front.sender, front.nonce, ())
  · intro front
    rfl
  · intro front
    simp [Fits]
  · intro front _
    simp [wire]
  · rintro ⟨version, services, time, receiver, sender, nonce, _⟩ _
    exact ⟨⟨version, services, time, receiver, sender, nonce⟩, rfl⟩

/-- A front has eighty bytes: four fixed numbers, two peers without a time, and a nonce. -/
theorem length_wire {front : Front} (h : front.Fits) : front.wire.length = 80 := by
  obtain ⟨hreceiver, hsender⟩ := h
  simp only [wire, List.length_append, PeerAddress.length_wire, PeerAddress.encodedLength,
    hreceiver, hsender, Bytes.length_ofUInt32, Bytes.length_ofUInt64, Bytes.length_ofInt64]
  rfl

end Front

def front (greeting : Version) : Front :=
  ⟨greeting.version, greeting.services, greeting.time, greeting.receiver, greeting.sender,
    greeting.nonce⟩

/-- A greeting of the fields that every peer sends and those that may be left out. -/
def ofFront (front : Front) (userAgent : String) (height : UInt32) (relay : Bool) : Version :=
  { front with userAgent, height, relay }

/-- A greeting is encoded as its front and the three fields behind it. -/
theorem wire_eq (greeting : Version) :
    greeting.wire = greeting.front.wire ++ (Bytes.counted (Text.Utf8.encode greeting.userAgent) ++
      (Bytes.ofUInt32 greeting.height ++ [if greeting.relay then 1 else 0])) := by
  simp [wire, front, Front.wire]

/-- The fields that may be left out. -/
def readRest (front : Front) : Read Version := do
  let userAgent ← optional "" Read.countedText
  let height ← optional 0 Read.uint32
  let relay ← optional true do return (← Read.byte) != 0
  return ofFront front userAgent height relay

/-- A greeting is read as its front and what is there behind it. -/
theorem read_eq : Version.read = Front.read >>= readRest := by
  simp only [Front.read, bind_assoc, pure_bind]
  rfl

/-! ## Reading every field -/

/-- A field is left out just if nothing is left. -/
theorem optional_apply {α : Type} (absent : α) (field : Read α) (reader : Reader) :
    optional absent field reader =
      if reader.ahead.isEmpty then .ok absent reader else field reader := by
  unfold optional
  rw [Access.bind_apply]
  change (if reader.ahead.isEmpty then _ else _ : Read α) reader = _
  split_ifs <;> rfl

/-- A field of which something is there is read. -/
theorem optional_eq_ok {α γ : Type} {absent : α} {field : Read α} {make : γ → α} {Fits : γ → Prop}
    {wire : γ → Bytes} (h : Accepts field make Fits wire) {c : γ} {reader : Reader} (hc : Fits c)
    (hahead : wire c <+: reader.ahead) (hpos : 0 < (wire c).length) :
    optional absent field reader = .ok (make c) (reader.advance (wire c).length) := by
  have hlength := hahead.length_le
  have hthere : ¬reader.ahead.isEmpty = true := by
    rw [List.isEmpty_iff, ← List.length_eq_zero_iff]
    omega
  rw [optional_apply, if_neg hthere]
  exact (h reader _ _).2 ⟨c, hc, rfl, hahead, rfl⟩

theorem accepts_countedText :
    Accepts Read.countedText Text.Utf8.decodeLossy Countable Bytes.counted :=
  accepts_countedBytes.answer Text.Utf8.decodeLossy

theorem accepts_relay :
    Accepts (do return (← Read.byte) != 0) (· != 0) (fun _ ↦ True) fun value ↦ [value] :=
  accepts_byte.answer (· != 0)

/-- Where all three fields are there, all three are read. -/
theorem readRest_eq_ok {front : Front} {agent : Bytes} {height : UInt32} {relay : UInt8}
    {reader : Reader} (hagent : Countable agent)
    (hahead : agent.counted ++ (Bytes.ofUInt32 height ++ [relay]) <+: reader.ahead) :
    readRest front reader =
      .ok (ofFront front (Text.Utf8.decodeLossy agent) height (relay != 0))
        (reader.advance (agent.counted ++ (Bytes.ofUInt32 height ++ [relay])).length) := by
  obtain ⟨hfirst, hahead⟩ := List.append_isPrefix_iff.1 hahead
  obtain ⟨hsecond, hthird⟩ := List.append_isPrefix_iff.1 hahead
  let atHeight := reader.advance agent.counted.length
  let atRelay := atHeight.advance (Bytes.ofUInt32 height).length
  have htext : optional "" Read.countedText reader =
      .ok (Text.Utf8.decodeLossy agent) atHeight := by
    have hpos := VarInt.size_pos (UInt64.ofNat agent.length)
    exact optional_eq_ok accepts_countedText hagent hfirst
      (by simp [Bytes.counted, VarInt.ofLength, hpos])
  have hheight : optional 0 Read.uint32 atHeight = .ok height atRelay :=
    optional_eq_ok accepts_uint32 trivial hsecond (by simp)
  have hrelay : optional true (do return (← Read.byte) != 0) atRelay =
      .ok (relay != 0) (atRelay.advance 1) :=
    optional_eq_ok accepts_relay trivial hthird (by simp)
  have hend : reader.advance (agent.counted ++ (Bytes.ofUInt32 height ++ [relay])).length =
      atRelay.advance 1 := by
    simp only [atRelay, atHeight, Reader.advance_advance, List.length_append, List.length_singleton,
      Nat.add_assoc]
  rw [hend]
  exact Access.bind_eq_ok_iff.2 ⟨_, _, htext, Access.bind_eq_ok_iff.2 ⟨_, _, hheight,
    Access.bind_eq_ok_iff.2 ⟨_, _, hrelay, rfl⟩⟩⟩

/-- Where a whole greeting lies ahead, all of it is read, however much follows. -/
theorem read_eq_ok {front : Front} {agent : Bytes} {height : UInt32} {relay : UInt8}
    {reader : Reader} (hfront : front.Fits) (hagent : Countable agent)
    (hahead : front.wire ++ (agent.counted ++ (Bytes.ofUInt32 height ++ [relay])) <+:
      reader.ahead) :
    Version.read reader =
      .ok (ofFront front (Text.Utf8.decodeLossy agent) height (relay != 0))
        (reader.advance
          (front.wire ++ (agent.counted ++ (Bytes.ofUInt32 height ++ [relay]))).length) := by
  obtain ⟨hfirst, hrest⟩ := List.append_isPrefix_iff.1 hahead
  have hread := Front.accepts_read.eq_ok_iff.2 ⟨hfront, hfirst, rfl⟩
  rw [read_eq, Access.bind_apply, hread]
  dsimp only
  rw [readRest_eq_ok hagent hrest, Reader.advance_advance, ← List.length_append]

/-- A greeting is made up of its front and the three fields behind it. -/
theorem ofFront_front (greeting : Version) :
    ofFront greeting.front greeting.userAgent greeting.height greeting.relay = greeting := rfl

/-- What the last byte is written as is read back. -/
theorem relay_of_byte (relay : Bool) : ((if relay then 1 else 0 : UInt8) != 0) = relay := by
  cases relay <;> rfl

/-- A greeting that is written is read, if its addresses carry no time. -/
theorem read_of_isPrefix {greeting : Version} {reader : Reader} (hfront : greeting.front.Fits)
    (hagent : Countable (Text.Utf8.encode greeting.userAgent))
    (hahead : greeting.wire <+: reader.ahead) :
    Version.read reader = .ok greeting (reader.advance greeting.wire.length) := by
  rw [wire_eq] at hahead ⊢
  rw [read_eq_ok hfront hagent hahead, Text.Utf8.decodeLossy_encode, relay_of_byte, ofFront_front]

/-! ## Reading what is there -/

/-- The read moves the cursor forward in the same bytes. -/
def Moves {α : Type} (read : Read α) : Prop :=
  ∀ reader a after, read reader = .ok a after → ∃ count, after = reader.advance count

namespace Moves

variable {α β : Type}

theorem pure (a : α) : Moves (pure a) := by
  intro reader b after h
  injection h with _ hafter
  exact ⟨0, by rw [Reader.advance_zero, hafter]⟩

theorem bind {read : Read α} {next : α → Read β} (h : Moves read) (hnext : ∀ a, Moves (next a)) :
    Moves (read >>= next) := by
  intro reader b after hread
  obtain ⟨a, middle, hfirst, hsecond⟩ := Access.bind_eq_ok_iff.1 hread
  obtain ⟨count, rfl⟩ := h reader a middle hfirst
  obtain ⟨count', rfl⟩ := hnext a _ b after hsecond
  exact ⟨count + count', Reader.advance_advance _ _ _⟩

theorem of_accepts {γ : Type} {read : Read β} {make : γ → β} {Fits : γ → Prop} {wire : γ → Bytes}
    (h : Accepts read make Fits wire) : Moves read := by
  intro reader b after hread
  obtain ⟨c, -, -, -, hafter⟩ := (h reader b after).1 hread
  exact ⟨_, hafter⟩

/-- An optional field moves the cursor forward as the field does. -/
theorem optional {field : Read α} (h : Moves field) (absent : α) :
    Moves (optional absent field) := by
  intro reader a after hread
  rw [optional_apply] at hread
  split_ifs at hread
  · exact pure absent reader a after hread
  · exact h reader a after hread

end Moves

/-- Whatever a greeting is read from, the read ends further on in the same buffer. -/
theorem moves_read : Moves Version.read := by
  rw [read_eq]
  apply (Moves.of_accepts Front.accepts_read).bind
  intro front
  apply ((Moves.of_accepts accepts_countedText).optional "").bind
  intro userAgent
  apply ((Moves.of_accepts accepts_uint32).optional 0).bind
  intro height
  apply ((Moves.of_accepts accepts_relay).optional true).bind
  intro relay
  exact Moves.pure _

/-- What every peer sends is read as it is sent. -/
theorem front_of_read {reader after : Reader} {greeting : Version}
    (h : Version.read reader = .ok greeting after) :
    greeting.front.Fits ∧ greeting.front.wire <+: reader.ahead := by
  rw [read_eq] at h
  obtain ⟨front, middle, hfront, hrest⟩ := Access.bind_eq_ok_iff.1 h
  obtain ⟨hfits, hahead, -⟩ := Front.accepts_read.eq_ok_iff.1 hfront
  obtain ⟨userAgent, _, -, hrest⟩ := Access.bind_eq_ok_iff.1 hrest
  obtain ⟨height, _, -, hrest⟩ := Access.bind_eq_ok_iff.1 hrest
  obtain ⟨relay, _, -, hlast⟩ := Access.bind_eq_ok_iff.1 hrest
  injection hlast with hgreeting
  subst hgreeting
  exact ⟨hfits, hahead⟩

/-! ## Payloads that are written as they were read -/

/-- Every field is there, the user agent is text, and the last byte is zero or one. -/
def Complete (source : Bytes) : Prop :=
  ∃ (front : Octets 80) (agent : Bytes) (height : UInt32) (relay : UInt8),
    front.toBytes ++ (agent.counted ++ (Bytes.ofUInt32 height ++ [relay])) <+: source ∧
      Countable agent ∧ (∃ text, Text.Utf8.decode agent = .ok text) ∧ (relay = 0 ∨ relay = 1)

/-- A greeting is written as the bytes that were read if nothing was missing from them and nothing
was replaced, and only then. -/
theorem wire_eq_sliceFrom_iff {source : Bytes} {greeting : Version} {after : Reader}
    (h : Version.read (Reader.ofBytes source) = .ok greeting after)
    (hagent : Countable (Text.Utf8.encode greeting.userAgent)) :
    greeting.wire = after.sliceFrom 0 ↔ Complete source := by
  obtain ⟨hfits, hfront⟩ := front_of_read h
  constructor
  · intro hwire
    obtain ⟨count, rfl⟩ := moves_read _ _ _ h
    have hahead : greeting.wire <+: source := by
      rw [hwire, Reader.sliceFrom_zero_advance]
      exact List.take_prefix count source
    rw [wire_eq] at hahead
    exact ⟨⟨greeting.front.wire, Front.length_wire hfits⟩, _, _, _, hahead, hagent,
      ⟨_, Text.Utf8.decode_eq_ok_iff.2 rfl⟩, by cases greeting.relay <;> simp⟩
  · rintro ⟨front, agent, height, relay, hahead, hcountable, htext, hrelay⟩
    have hsame : greeting.front.wire = front.toBytes := by
      have hlength : greeting.front.wire.length = front.toBytes.length := by
        rw [Front.length_wire hfits, front.length_toBytes]
      have hprefix := (List.append_isPrefix_iff.1 hahead).1
      exact (List.prefix_of_prefix_length_le hfront hprefix hlength.le).eq_of_length hlength
    rw [← hsame] at hahead
    have hread : Version.read (Reader.ofBytes source) = _ := read_eq_ok hfits hcountable hahead
    rw [h] at hread
    injection hread with hgreeting hafter
    have huserAgent : greeting.userAgent = Text.Utf8.decodeLossy agent :=
      congrArg Version.userAgent hgreeting
    have hheight : greeting.height = height := congrArg Version.height hgreeting
    have hnonzero : greeting.relay = (relay != 0) := congrArg Version.relay hgreeting
    have hbyte : (if relay != 0 then 1 else 0) = relay := by
      obtain rfl | rfl := hrelay <;> rfl
    have hwire : greeting.wire =
        greeting.front.wire ++ (agent.counted ++ (Bytes.ofUInt32 height ++ [relay])) := by
      rw [wire_eq, huserAgent, Text.Utf8.encode_decodeLossy_eq_iff.2 htext, hheight, hnonzero,
        hbyte]
    rw [hafter, Reader.sliceFrom_zero_advance, ← List.prefix_iff_eq_take.1 hahead, hwire]

end Version

end CoinWire
