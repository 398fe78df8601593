import Mathlib
import CoinWire.Proofs.Agreement
import CoinWire.Proofs.Greeting

/-!
# Greetings that end early

A greeting may end where a field begins that old peers leave out. Wherever else it ends, some field
has begun and is not all there. A read of such a field fails for want of bytes, and so does the read
of the greeting. So no start of a greeting is read as anything but the greeting up to that place.
-/

namespace CoinWire

/-! ## Reads that fail for want of bytes -/

namespace Read

variable {α β γ δ : Type} {reader after : Reader}

/-- The read fails because bytes are missing. -/
def Underruns (read : Read α) (reader : Reader) : Prop :=
  ∃ needed remaining after, read reader = .error (.underrun needed remaining) after

theorem Underruns.bind {read : Read α} (h : Underruns read reader) (next : α → Read β) :
    Underruns (read >>= next) reader := by
  obtain ⟨needed, remaining, after, h⟩ := h
  exact ⟨needed, remaining, after, by rw [Access.bind_apply, h]⟩

/-- A read may also run short in its second part. -/
theorem Underruns.of_bind {read : Read α} {next : α → Read β} {a : α}
    (h : read reader = .ok a after) (hnext : Underruns (next a) after) :
    Underruns (read >>= next) reader := by
  obtain ⟨needed, remaining, last, hnext⟩ := hnext
  refine ⟨needed, remaining, last, ?_⟩
  rw [Access.bind_apply, h]
  exact hnext

/-- Where no more is there than the start of an admissible encoding, and not all of it, the read
fails for want of bytes. -/
def Starves (read : Read β) (Fits : γ → Prop) (wire : γ → Bytes) : Prop :=
  ∀ c reader, Fits c → reader.ahead <+: wire c → reader.ahead.length < (wire c).length →
    Underruns read reader

/-- A field of fixed width runs short just below its width. -/
theorem Spans.underruns {read : Read α} {width : Nat} (h : Spans width read)
    (hshort : reader.ahead.length < width) : Underruns read reader := by
  have hread := h reader
  rwa [if_neg (Nat.not_le_of_lt hshort)] at hread

theorem Spans.starves {read : Read β} {width : Nat} (h : Spans width read) {Fits : γ → Prop}
    {wire : γ → Bytes} (hwire : ∀ c, Fits c → (wire c).length = width) :
    Starves read Fits wire := by
  intro c reader hc _ hshort
  exact h.underruns (hwire c hc ▸ hshort)

namespace Starves

variable {read : Read β} {Fits : γ → Prop} {wire : γ → Bytes}

theorem answer (h : Starves read Fits wire) (f : β → α) :
    Starves (do return f (← read)) Fits wire :=
  fun c reader hc hahead hshort ↦ (h c reader hc hahead hshort).bind _

/-- Two reads in a row: what is there ends in the first encoding, or in the second. -/
theorem bind {ε : Type} {read : Read γ} {next : γ → Read δ} {Fits' : γ → ε → Prop}
    {wire' : γ → ε → Bytes} (h : Starves read Fits wire) (haccepts : Accepts read id Fits wire)
    (hnext : ∀ c, Starves (next c) (Fits' c) (wire' c)) :
    Starves (read >>= next) (fun pair : γ × ε ↦ Fits pair.1 ∧ Fits' pair.1 pair.2)
      (fun pair ↦ wire pair.1 ++ wire' pair.1 pair.2) := by
  rintro ⟨c, d⟩ reader ⟨hc, hd⟩ hahead hshort
  have hfirst := List.prefix_append (wire c) (wire' c d)
  by_cases hwhole : (wire c).length ≤ reader.ahead.length
  · have hfront : wire c <+: reader.ahead :=
      List.prefix_of_prefix_length_le hfirst hahead hwhole
    have hread := haccepts.eq_ok_iff.2 ⟨hc, hfront, rfl⟩
    obtain ⟨rest, hrest⟩ := hfront
    have hdrop : (reader.advance (wire c).length).ahead = rest := by
      rw [Reader.ahead_advance, ← hrest, List.drop_left]
    dsimp only at hahead hshort
    rw [← hrest] at hahead hshort
    rw [List.prefix_append_right_inj] at hahead
    rw [List.length_append, List.length_append, Nat.add_lt_add_iff_left] at hshort
    exact .of_bind hread (hnext c d _ hd (hdrop ▸ hahead) (hdrop ▸ hshort))
  · have hfront : reader.ahead <+: wire c :=
      List.prefix_of_prefix_length_le hahead hfirst (Nat.le_of_not_le hwhole)
    exact (h c reader hc hfront (Nat.lt_of_not_le hwhole)).bind next

end Starves

/-- A number that is cut anywhere runs short. -/
theorem starves_varInt : Starves varInt (fun _ ↦ True) VarInt.encode := by
  intro value reader _ hahead hshort
  rw [VarInt.length_encode] at hshort
  obtain ⟨needed, remaining, hdecode⟩ := VarInt.decode_of_isPrefix hahead hshort
  exact ⟨needed, remaining, reader, by rw [varInt, hdecode]⟩

/-- Bytes of a given number that are cut anywhere run short. -/
theorem starves_bytes (count : Nat) :
    Starves (bytes count) (fun found ↦ found.length = count) id :=
  (Spans.bytes count).starves fun _ hfound ↦ hfound

theorem starves_byte : Starves byte (fun _ ↦ True) fun value : UInt8 ↦ [value] :=
  Spans.byte.starves fun _ _ ↦ rfl

theorem starves_uint32 : Starves uint32 (fun _ ↦ True) Bytes.ofUInt32 :=
  Spans.uint32.starves fun value _ ↦ Bytes.length_ofUInt32 value

/-- Counted bytes that are cut run short, in their length or behind it. -/
theorem starves_countedBytes : Starves countedBytes Countable Bytes.counted := by
  have h := starves_varInt.bind accepts_varInt fun length ↦ starves_bytes length.toNat
  intro found reader hfound
  exact h (UInt64.ofNat found.length, found) reader ⟨trivial, (toNat_ofNat_length hfound).symm⟩

theorem starves_countedText : Starves countedText Countable Bytes.counted :=
  starves_countedBytes.answer Text.Utf8.decodeLossy

/-- The read answers `a` where `whole` says that no field is cut, and fails for want of bytes
elsewhere. -/
def Ends (read : Read α) (reader : Reader) (whole : Prop) (a : α) : Prop :=
  (whole ∧ ∃ after, read reader = .ok a after) ∨ (¬whole ∧ Underruns read reader)

theorem Ends.exists_ok {read : Read α} {whole : Prop} {a : α} (h : Ends read reader whole a)
    (hwhole : whole) : ∃ after, read reader = .ok a after := by
  obtain ⟨-, hread⟩ | ⟨hcut, -⟩ := h
  · exact hread
  · exact absurd hwhole hcut

end Read

open Read

theorem PeerAddress.spans_read : Spans size (PeerAddress.read false) :=
  (Spans.pure none).bind fun _ ↦ Spans.uint64.bind fun _ ↦ (Spans.take 16).bind fun _ ↦
    Spans.port.bind fun _ ↦ Spans.pure _

namespace Version

variable {front : Front} {agent more : Bytes} {userAgent : String} {height : UInt32} {relay : UInt8}
  {reader : Reader} {count : Nat}

theorem Front.spans_read : Spans 80 Front.read :=
  Spans.uint32.bind fun _ ↦ Spans.uint64.bind fun _ ↦ Spans.int64.bind fun _ ↦
    PeerAddress.spans_read.bind fun _ ↦ PeerAddress.spans_read.bind fun _ ↦
    Spans.uint64.bind fun _ ↦ Spans.pure _

/-! ## One field -/

/-- Of a field that may be left out nothing is there, or a part, or all of it. -/
theorem optional_take {α γ : Type} {field : Read α} {make : γ → α} {Fits : γ → Prop}
    {wire : γ → Bytes} (haccepts : Accepts field make Fits wire)
    (hstarves : Starves field Fits wire) (absent : α) {c : γ} (hc : Fits c)
    (hpos : 0 < (wire c).length) (hahead : reader.ahead = (wire c ++ more).take count) :
    (count = 0 ∧ optional absent field reader = .ok absent reader) ∨
      ((0 < count ∧ count < (wire c).length) ∧ Underruns (optional absent field) reader) ∨
      ((wire c).length ≤ count ∧ ∃ after, optional absent field reader = .ok (make c) after ∧
        after.ahead = more.take (count - (wire c).length)) := by
  obtain rfl | hsome := Nat.eq_zero_or_pos count
  · refine .inl ⟨rfl, ?_⟩
    rw [optional_apply, hahead, List.take_zero, List.isEmpty_nil, if_pos rfl]
  · refine .inr ?_
    obtain hpart | hwhole := Nat.lt_or_ge count (wire c).length
    · have htake : reader.ahead = (wire c).take count := by
        rw [hahead, List.take_append_of_le_length hpart.le]
      have hlength : reader.ahead.length = count := by
        rw [htake, List.length_take_of_le hpart.le]
      have hthere : ¬reader.ahead.isEmpty = true := by
        rw [List.isEmpty_iff, ← List.length_eq_zero_iff]
        omega
      obtain ⟨needed, remaining, after, hfail⟩ :=
        hstarves c reader hc (htake ▸ List.take_prefix _ _) (hlength ▸ hpart)
      exact .inl ⟨⟨hsome, hpart⟩, needed, remaining, after, by
        rw [optional_apply, if_neg hthere, hfail]⟩
    · have hsplit : reader.ahead = wire c ++ more.take (count - (wire c).length) := by
        rw [hahead, List.take_append, List.take_of_length_le hwhole]
      refine .inr ⟨hwhole, _, optional_eq_ok haccepts hc ⟨_, hsplit.symm⟩ hpos, ?_⟩
      rw [Reader.ahead_advance, hsplit, List.drop_left]

/-- A field that may be left out and what comes after it. If the bytes end before the field, nothing
comes after it either. -/
theorem ends_optional_bind {α γ : Type} {field : Read α} {make : γ → α} {Fits : γ → Prop}
    {wire : γ → Bytes} (haccepts : Accepts field make Fits wire)
    (hstarves : Starves field Fits wire) {absent : α} {c : γ} (hc : Fits c)
    (hpos : 0 < (wire c).length) (hahead : reader.ahead = (wire c ++ more).take count)
    {next : α → Read Version} {whole : Prop} (whole' : Prop) {found : Version}
    (habsent : count = 0 → ∃ after, next absent reader = .ok found after)
    (hthere : (wire c).length ≤ count → ∀ after : Reader,
      after.ahead = more.take (count - (wire c).length) → Ends (next (make c)) after whole' found)
    (hwhole : whole ↔ count = 0 ∨ (wire c).length ≤ count ∧ whole') :
    Ends (optional absent field >>= next) reader whole found := by
  obtain ⟨hnone, hfield⟩ | ⟨⟨hsome, hpart⟩, hfield⟩ | ⟨hall, middle, hfield, hrest⟩ :=
    optional_take haccepts hstarves absent hc hpos hahead
  · obtain ⟨after, hnext⟩ := habsent hnone
    exact .inl ⟨hwhole.2 (.inl hnone), after, Access.bind_eq_ok_iff.2 ⟨_, _, hfield, hnext⟩⟩
  · refine .inr ⟨?_, hfield.bind next⟩
    rw [hwhole]
    omega
  · obtain ⟨hnextWhole, after, hnext⟩ | ⟨hcut, hnext⟩ := hthere hall middle hrest
    · exact .inl ⟨hwhole.2 (.inr ⟨hall, hnextWhole⟩), after,
        Access.bind_eq_ok_iff.2 ⟨_, _, hfield, hnext⟩⟩
    · refine .inr ⟨?_, .of_bind hfield hnext⟩
      rw [hwhole]
      rintro (hnone | ⟨-, hnextWhole⟩)
      · omega
      · exact hcut hnextWhole

/-! ## The fields that may be left out -/

/-- The last of the fields that may be left out. -/
def readRelay (front : Front) (userAgent : String) (height : UInt32) : Read Version := do
  let relay ← optional true do return (← Read.byte) != 0
  return ofFront front userAgent height relay

/-- The last two of them. -/
def readHeight (front : Front) (userAgent : String) : Read Version := do
  let height ← optional 0 Read.uint32
  readRelay front userAgent height

/-- The relay flag is read if it is there, and it is true if it is not. -/
theorem readRelay_take (hahead : reader.ahead = [relay].take count) :
    Ends (readRelay front userAgent height) reader True
      (ofFront front userAgent height (if count < 1 then true else relay != 0)) := by
  have hahead' : reader.ahead = ([relay] ++ []).take count := hahead
  apply ends_optional_bind accepts_relay (starves_byte.answer (· != 0)) trivial Nat.one_pos hahead'
    True
  · rintro rfl
    exact ⟨reader, rfl⟩
  · intro hall after _
    rw [List.length_singleton] at hall
    rw [if_neg (Nat.not_lt_of_le hall)]
    exact .inl ⟨trivial, after, rfl⟩
  · rw [List.length_singleton, and_true, true_iff]
    exact Nat.eq_zero_or_pos count

/-- The height is read from four bytes, is zero without any, and runs short between. -/
theorem readHeight_take
    (hahead : reader.ahead = (Bytes.ofUInt32 height ++ [relay]).take count) :
    Ends (readHeight front userAgent) reader (count = 0 ∨ 4 ≤ count)
      (ofFront front userAgent (if count < 4 then 0 else height)
        (if count < 5 then true else relay != 0)) := by
  apply ends_optional_bind accepts_uint32 starves_uint32 trivial (by simp) hahead True
  · rintro rfl
    have hnone : reader.ahead = [relay].take 0 := hahead
    have hrelay : Ends (readRelay front userAgent 0) reader True _ := readRelay_take hnone
    exact hrelay.exists_ok trivial
  · intro hall after hrest
    rw [Bytes.length_ofUInt32] at hall hrest
    have hrelay : count - 4 < 1 ↔ count < 5 := by omega
    rw [if_neg (Nat.not_lt_of_le hall), ← if_congr hrelay rfl rfl]
    exact readRelay_take hrest
  · rw [Bytes.length_ofUInt32, and_true]

/-- A front may end behind itself, behind the user agent, behind the height, or behind the flag. -/
theorem readRest_take (hagent : Countable agent)
    (hahead : reader.ahead =
      (agent.counted ++ (Bytes.ofUInt32 height ++ [relay])).take count) :
    let size := Bytes.countedSize agent.length
    Ends (readRest front) reader (count = 0 ∨ count = size ∨ size + 4 ≤ count)
      (ofFront front (if count < size then "" else Text.Utf8.decodeLossy agent)
        (if count < size + 4 then 0 else height)
        (if count < size + 5 then true else relay != 0)) := by
  intro size
  have hlength : agent.counted.length = size := Bytes.length_counted agent
  have hpos : 0 < size := by
    have hsize := VarInt.size_pos (UInt64.ofNat agent.length)
    exact Nat.add_pos_left hsize _
  apply ends_optional_bind accepts_countedText starves_countedText hagent (hlength ▸ hpos) hahead
    (count - size = 0 ∨ 4 ≤ count - size)
  · rintro rfl
    have hnone : reader.ahead = (Bytes.ofUInt32 height ++ [relay]).take 0 := hahead
    have hheight : Ends (readHeight front "") reader _ _ := readHeight_take hnone
    rw [if_pos hpos]
    exact hheight.exists_ok (.inl rfl)
  · intro hall after hrest
    rw [hlength] at hall hrest
    have hheight : count - size < 4 ↔ count < size + 4 := by omega
    have hrelay : count - size < 5 ↔ count < size + 5 := by omega
    rw [if_neg (Nat.not_lt_of_le hall), ← if_congr hheight rfl rfl, ← if_congr hrelay rfl rfl]
    exact readHeight_take hrest
  · rw [hlength]
    omega

/-! ## Every cut -/

/-- The greeting with those fields replaced that are not all among its first `count` bytes. -/
def cut (greeting : Version) (count : Nat) : Version :=
  let size := Bytes.countedSize (Text.Utf8.encode greeting.userAgent).length
  { greeting with
    userAgent := if count < 80 + size then "" else greeting.userAgent
    height := if count < 84 + size then 0 else greeting.height
    relay := if count < 85 + size then true else greeting.relay }

/-- A greeting has eighty-five bytes and its user agent with its length. -/
theorem length_wire {greeting : Version} (hfits : greeting.front.Fits) :
    greeting.wire.length =
      85 + Bytes.countedSize (Text.Utf8.encode greeting.userAgent).length := by
  simp only [wire_eq, List.length_append, Front.length_wire hfits, Bytes.length_counted,
    Bytes.length_ofUInt32, List.length_singleton]
  omega

/-- A cut of an encoded greeting is read just if no field is cut, with the fields behind the cut as
if left out. -/
theorem read_take {greeting : Version} (hfits : greeting.front.Fits)
    (hagent : Countable (Text.Utf8.encode greeting.userAgent))
    (hahead : reader.ahead = greeting.wire.take count) :
    let size := Bytes.countedSize (Text.Utf8.encode greeting.userAgent).length
    Ends Version.read reader (count = 80 ∨ count = 80 + size ∨ 84 + size ≤ count)
      (greeting.cut count) := by
  intro size
  have hfront := Front.length_wire hfits
  rw [wire_eq] at hahead
  rw [read_eq]
  obtain hshort | hlong := Nat.lt_or_ge count 80
  · have hlength : reader.ahead.length < 80 := by
      rw [hahead, List.length_take]
      omega
    exact .inr ⟨by omega, (Front.spans_read.underruns hlength).bind _⟩
  · rw [List.take_append, List.take_of_length_le (hfront.symm ▸ hlong), hfront] at hahead
    have hread := Front.accepts_read.eq_ok_iff.2 ⟨hfits, ⟨_, hahead.symm⟩, rfl⟩
    have hdrop := Reader.ahead_advance greeting.front.wire.length reader
    rw [hahead, List.drop_left] at hdrop
    have hcut : ofFront greeting.front
        (if count - 80 < size then ""
          else Text.Utf8.decodeLossy (Text.Utf8.encode greeting.userAgent))
        (if count - 80 < size + 4 then 0 else greeting.height)
        (if count - 80 < size + 5 then true else (if greeting.relay then 1 else 0 : UInt8) != 0) =
          greeting.cut count := by
      have huserAgent : count - 80 < size ↔ count < 80 + size := by omega
      have hheight : count - 80 < size + 4 ↔ count < 84 + size := by omega
      have hrelay : count - 80 < size + 5 ↔ count < 85 + size := by omega
      rw [Text.Utf8.decodeLossy_encode, relay_of_byte, if_congr huserAgent rfl rfl,
        if_congr hheight rfl rfl, if_congr hrelay rfl rfl]
      rfl
    obtain ⟨hwhole, after, hrest⟩ | ⟨hpart, hrest⟩ := readRest_take hagent hdrop
    · exact .inl ⟨by omega, after, Access.bind_eq_ok_iff.2 ⟨_, _, hread, hcut ▸ hrest⟩⟩
    · exact .inr ⟨by omega, .of_bind hread hrest⟩

/-- Of the first bytes of a greeting as much is read as is there, if a field ends with them and the
rest may be left out. At every other place the read fails for want of bytes. -/
theorem answer_read_take {greeting : Version} {count : Nat}
    (hreceiver : greeting.receiver.time = none) (hsender : greeting.sender.time = none)
    (hagent : Countable (Text.Utf8.encode greeting.userAgent))
    (hcount : count ≤ greeting.wire.length) :
    let size := Bytes.countedSize (Text.Utf8.encode greeting.userAgent).length
    let answer := Version.read.answer (Reader.ofBytes (greeting.wire.take count))
    let whole := count = 80 ∨ count = 80 + size ∨ count = 84 + size ∨ count = 85 + size
    greeting.wire.length = 85 + size ∧
      ((∃ found, answer = .ok found) ↔ whole) ∧
      (whole → answer = .ok (greeting.cut count)) ∧
      (¬whole → ∃ needed remaining, answer = .error (.underrun needed remaining)) := by
  intro size answer whole
  have hlength : greeting.wire.length = 85 + size := length_wire ⟨hreceiver, hsender⟩
  have hends : Ends Version.read (Reader.ofBytes (greeting.wire.take count)) _ _ :=
    read_take ⟨hreceiver, hsender⟩ hagent rfl
  refine ⟨hlength, ?_⟩
  obtain ⟨hplace, after, hread⟩ | ⟨hplace, needed, remaining, after, hread⟩ := hends
  · have hwhole : whole := by omega
    have hanswer : answer = .ok (greeting.cut count) := Access.answer_eq_ok hread
    exact ⟨iff_of_true ⟨_, hanswer⟩ hwhole, fun _ ↦ hanswer, fun hpart ↦ absurd hwhole hpart⟩
  · have hpart : ¬whole := by omega
    have hanswer : answer = .error (.underrun needed remaining) := Access.answer_eq_error hread
    refine ⟨iff_of_false ?_ hpart, fun hwhole ↦ absurd hwhole hpart, fun _ ↦ ⟨_, _, hanswer⟩⟩
    rintro ⟨found, hfound⟩
    rw [hanswer] at hfound
    contradiction

/-- The user agent of a local node has eighteen bytes and one for their number, so ninety-nine bytes
stand before the height. -/
theorem answer_read_take_new :
    let greeting := { Version.new Network.paycoin.params 5 7 9 with relay := false }
    let answer := fun count ↦ Version.read.answer (Reader.ofBytes (greeting.wire.take count))
    greeting.receiver.time = none ∧ greeting.sender.time = none ∧
      Countable (Text.Utf8.encode greeting.userAgent) ∧ 100 ≤ greeting.wire.length ∧
      answer 80 = .ok { greeting with userAgent := "", height := 0, relay := true } ∧
      answer 99 = .ok { greeting with height := 0, relay := true } ∧
      ∃ needed remaining, answer 100 = .error (.underrun needed remaining) := by
  intro greeting answer
  have hsize : Bytes.countedSize (Text.Utf8.encode greeting.userAgent).length = 19 := by decide
  have hagent : (Text.Utf8.encode greeting.userAgent).length < 2 ^ 64 := by decide
  have hlength : 100 ≤ greeting.wire.length := by decide
  have hfirst : 80 ≤ greeting.wire.length := by omega
  have hsecond : 99 ≤ greeting.wire.length := by omega
  obtain ⟨-, -, hfront, -⟩ := answer_read_take rfl rfl hagent hfirst
  obtain ⟨-, -, hnamed, -⟩ := answer_read_take rfl rfl hagent hsecond
  obtain ⟨-, -, -, hcut⟩ := answer_read_take rfl rfl hagent hlength
  rw [cut, hsize] at hfront hnamed
  rw [hsize] at hcut
  exact ⟨rfl, rfl, hagent, hlength, hfront (.inl rfl), hnamed (.inr (.inl rfl)), hcut (by decide)⟩

end Version

end CoinWire
