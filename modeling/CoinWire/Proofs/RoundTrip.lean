import Mathlib
import CoinWire.Proofs.Exchange

/-!
# Round trips of payloads

A message comes back from its payload if it keeps the limits of the parsers, its addresses carry a
time where the command has one and nowhere else, and its blocks have the right body; no other does.
A payload comes back from the message that was read of it, except for what follows the message. Of a
greeting it comes back if the fields were all there and written in the one way that they are
written.
-/

namespace CoinWire

variable {message : Message} {v : PlainMessage} {block : Block} {whole : PlainBlock}

/-! ## Regular messages -/

theorem Block.Holds.isHeaderOnly_eq_false_iff (h : block.Holds whole) :
    block.isHeaderOnly = false ↔ whole.body.isSome = true := by
  unfold Block.isHeaderOnly
  obtain ⟨hnone, hnone'⟩ | ⟨body, body', hbody, hbody', -⟩ := h.body_cases
  · rw [hnone, hnone']
    exact iff_of_false nofun nofun
  · rw [hbody, hbody']
    exact iff_of_true rfl rfl

theorem Block.Holds.answer_transactionCount {body : Body} (h : block.Holds whole)
    (hbody : whole.body = some body) :
    Block.transactionCount.answer block = .ok body.transactions.length := by
  rw [Block.looks_transactionCount.answer_eq_mapError h, PlainBlock.askBody, hbody]
  rfl

namespace Block

/-- The block has a body, and no transaction is in it. -/
def HasEmptyBody (block : Block) : Prop :=
  block.isHeaderOnly = false ∧ Block.transactionCount.answer block = .ok 0

theorem Holds.hasEmptyBody_iff (h : block.Holds whole) :
    block.HasEmptyBody ↔ whole.HasEmptyBody := by
  unfold HasEmptyBody PlainBlock.HasEmptyBody
  rw [h.isHeaderOnly_eq_false_iff, Option.isSome_iff_exists]
  constructor
  · rintro ⟨⟨body, hbody⟩, hcount⟩
    rw [h.answer_transactionCount hbody] at hcount
    injection hcount with hcount
    exact ⟨body, hbody, List.eq_nil_of_length_eq_zero hcount⟩
  · rintro ⟨body, hbody, hempty⟩
    rw [h.answer_transactionCount hbody, hempty]
    exact ⟨⟨body, hbody⟩, rfl⟩

end Block

namespace Message

/-- What is asked of a message in order that it comes back from its payload. -/
def Regular : Message → Prop
  | .version greeting => greeting.receiver.time = none ∧ greeting.sender.time = none
  | .addr peers => peers.length ≤ 1024 ∧ ∀ peer ∈ peers, peer.time.isSome
  | .inv items | .getData items | .notFound items => items.length ≤ 50000
  | .getBlocks locator | .getHeaders locator => locator.hashes.length ≤ 500
  | .headers blocks => blocks.length ≤ 2000 ∧ ∀ block ∈ blocks, block.HasEmptyBody
  | .block whole => whole.isHeaderOnly = false
  | .verack | .tx _ | .ping _ | .pong _ | .getAddr | .memPool => True
  | .unknown .. => False

/-- A message is regular as the plain message that it holds. -/
theorem Holds.regular_iff (h : message.Holds v) : message.Regular ↔ v.Regular := by
  cases h with
  | @headers blocks values h =>
    have hempty := forall_mem_iff_of_forall₂ h fun _ _ ↦ Block.Holds.hasEmptyBody_iff
    have hlength : blocks.length = values.length := List.Forall₂.length_eq h
    change blocks.length ≤ 2000 ∧ (∀ block ∈ blocks, block.HasEmptyBody) ↔ _
    rw [hempty, hlength]
    exact Iff.rfl
  | block h => exact h.isHeaderOnly_eq_false_iff
  | _ => exact Iff.rfl

/-! ## Messages that come back -/

/-- Written, and read by the parser of its command, the message comes back. -/
def RoundTrips (config : ParseConfig) (message : Message) : Prop :=
  ∃ payload after parser found, Message.payload message = .ok payload after ∧
    PayloadParser.defaults.lookup message.command = some parser ∧
    parser payload config = .ok found ∧ (compare found after).equal = true

/-- Under every configuration the parser makes of the payload a message that equals this one, and
that is written as the same bytes. -/
def Rereads (parser : PayloadParser) (payload : Bytes) (message : Message) : Prop :=
  ∀ config, ∃ found, parser payload config = .ok found ∧ (compare found message).equal = true ∧
    Message.payload.answer found = .ok payload

theorem Holds.answer_payload (h : message.Holds v) :
    Message.payload.answer message = .ok v.wire := by
  obtain ⟨after, hpayload, -⟩ := h.payload
  exact Access.answer_eq_ok hpayload

theorem Holds.rereads (h : message.Holds v) (hregular : v.Regular) (hfits : v.Fits) :
    ∃ read, reads.lookup v.command = some read ∧
      message.Rereads (PayloadParser.ofRead read) v.wire := by
  obtain ⟨read, hlookup, hread⟩ := exists_read_of_regular hregular hfits
  refine ⟨read, hlookup, ?_⟩
  intro config
  obtain ⟨found, after, hfound, hholds⟩ := hread config
  exact ⟨found, Access.answer_eq_ok hfound, (hholds.compare h).1.2 rfl, hholds.answer_payload⟩

theorem Holds.regular_of_roundTrips (h : message.Holds v) {config : ParseConfig}
    (hround : message.RoundTrips config) : v.Regular := by
  obtain ⟨payload, after, parser, found, hpayload, hlookup, hfound, hequal⟩ := hround
  obtain ⟨after', hpayload', hafter⟩ := h.payload
  rw [hpayload'] at hpayload
  injection hpayload with _ hsame
  subst hsame
  obtain ⟨front, back, hdefaults, -⟩ := List.lookup_eq_some_iff.1 hlookup
  have hmem : (message.command, parser) ∈ PayloadParser.defaults := by
    rw [hdefaults]
    exact List.mem_append_right front List.mem_cons_self
  obtain ⟨w, hholds, -, hregular⟩ := PayloadParser.exists_regular hmem hfound
  obtain rfl : w = v := (hholds.compare hafter).1.1 hequal
  exact hregular

theorem Holds.roundTrips (h : message.Holds v) (hregular : v.Regular) (hfits : v.Fits)
    (config : ParseConfig) : message.RoundTrips config := by
  obtain ⟨after, hpayload, hafter⟩ := h.payload
  obtain ⟨read, hlookup, hrereads⟩ := hafter.rereads hregular hfits
  obtain ⟨found, hfound, hequal, -⟩ := hrereads config
  refine ⟨v.wire, after, PayloadParser.ofRead read, found, hpayload, ?_, hfound, hequal⟩
  rw [h.command_eq, PayloadParser.lookup_defaults, hlookup]
  rfl

/-- A reachable message of a known kind can be written. It comes back from its payload if it is
regular, and only then, whatever the configuration. No payload in memory is as long as `2 ^ 64`
bytes. -/
theorem roundTrips_iff_regular {message : Message} (hreachable : message.Reachable)
    (hknown : message.isKnown = true) :
    ∃ payload, Message.payload.answer message = .ok payload ∧
      (payload.length < UInt64.size →
        ∀ config, message.RoundTrips config ↔ message.Regular) := by
  obtain ⟨v, hv⟩ := hreachable.holds hknown
  refine ⟨v.wire, hv.answer_payload, ?_⟩
  intro hshort config
  rw [hv.regular_iff]
  constructor
  · exact hv.regular_of_roundTrips
  · intro hregular
    exact hv.roundTrips hregular (PlainMessage.fits_of_length_lt hregular hshort) config

/-- Two blocks that were decoded and are not parsed yet: one without transactions, which comes back
as a header, and one with a transaction, beside which neither comes back. -/
theorem roundTrips_headers_without_transactions :
    let header : Bytes := List.replicate 80 0
    let transaction : Bytes := [1, 0, 0, 0, 7, 0, 0, 0, 0, 0, 0, 0, 0, 0]
    let decoded (body : Bytes) : Block := ⟨⟨some header, true, .deferredRetain, none, none⟩,
      some ⟨some body, true, .deferredRetain, none, none⟩, some (header ++ body)⟩
    let empty := decoded [0, 0]
    let full := decoded ([1] ++ transaction ++ [0])
    (headers [empty]).Reachable ∧ (headers [empty, full]).Reachable ∧
      ∀ config, (headers [empty]).RoundTrips config ∧
        ¬(headers [empty, full]).RoundTrips config := by
  intro header transaction decoded empty full
  have hempty : (Item.block empty).Reachable :=
    @Item.Reachable.of_make (.block (header ++ [0, 0]) .deferredRetain) _ (by cbv)
  have hfull : (Item.block full).Reachable :=
    @Item.Reachable.of_make (.block (header ++ ([1] ++ transaction ++ [0])) .deferredRetain) _
      (by cbv)
  have hone : (headers [empty]).Reachable := List.forall_mem_singleton.2 hempty
  have htwo : (headers [empty, full]).Reachable :=
    List.forall_mem_cons.2 ⟨hempty, List.forall_mem_singleton.2 hfull⟩
  have hbytes : Message.payload.answer (headers [empty]) = .ok ([1] ++ header ++ [0, 0]) := by
    rfl
  have hbytes' : Message.payload.answer (headers [empty, full]) =
      .ok ([2] ++ header ++ [0, 0] ++ header ++ [1] ++ transaction ++ [0]) := by
    rfl
  have hcount : Block.transactionCount.answer empty = .ok 0 := rfl
  have hcount' : Block.transactionCount.answer full = .ok 1 := rfl
  obtain ⟨payload, hpayload, h⟩ := roundTrips_iff_regular hone rfl
  obtain ⟨payload', hpayload', h'⟩ := roundTrips_iff_regular htwo rfl
  obtain rfl : _ = payload := Except.ok.inj (hbytes.symm.trans hpayload)
  obtain rfl : _ = payload' := Except.ok.inj (hbytes'.symm.trans hpayload')
  simp only [List.length_append, List.length_replicate, List.length_cons, List.length_nil, header,
    transaction] at h h'
  refine ⟨hone, htwo, fun config ↦ ⟨?_, ?_⟩⟩
  · exact (h (by decide) config).2 ⟨by decide, List.forall_mem_singleton.2 ⟨rfl, hcount⟩⟩
  · intro hround
    obtain ⟨-, hblocks⟩ := (h' (by decide) config).1 hround
    obtain ⟨-, hsome⟩ := hblocks full (List.mem_cons_of_mem _ List.mem_cons_self)
    rw [hcount'] at hsome
    contradiction

/-! ## Payloads that come back -/

/-- What a parser reads of a payload is written again as the bytes that were read, and they are read
as the same message. A greeting is written as bytes that are read as the same greeting, and they are
the bytes that were read only if these were complete. -/
theorem payload_of_read :
    PayloadParser.defaults = reads.map (Prod.map id PayloadParser.ofRead) ∧
      ∀ entry ∈ reads, ∀ config source message after,
        entry.2 config (Reader.ofBytes source) = .ok message after →
          after.sliceFrom 0 ++ after.ahead = source ∧ message.command = entry.1 ∧
          ∃ payload, Message.payload.answer message = .ok payload ∧
            (entry.1 ≠ "version" → payload = after.sliceFrom 0 ∧
              message.Rereads (PayloadParser.ofRead entry.2) payload) ∧
            (entry.1 = "version" → payload.length < UInt64.size →
              message.Rereads (PayloadParser.ofRead entry.2) payload ∧
                (payload = after.sliceFrom 0 ↔ Version.Complete source)) := by
  refine ⟨rfl, ?_⟩
  rintro ⟨name, read⟩ hmem config source message after hread
  obtain ⟨v, hv, hcommand, hregular, hsource, hexact, hgreeting⟩ :=
    exists_regular_of_read hmem hread
  have hrereads (hfits : v.Fits) : message.Rereads (PayloadParser.ofRead read) v.wire := by
    obtain ⟨read', hlookup, hrereads⟩ := hv.rereads hregular hfits
    rw [hcommand, lookup_reads _ hmem] at hlookup
    injection hlookup with hsame
    subst hsame
    exact hrereads
  refine ⟨hsource, hv.command_eq.trans hcommand, v.wire, hv.answer_payload, ?_, ?_⟩
  · intro hname
    obtain ⟨hfits, hwire⟩ := hexact hname
    exact ⟨hwire, hrereads hfits⟩
  · intro hname hshort
    have hfits : v.Fits := PlainMessage.fits_of_length_lt hregular hshort
    exact ⟨hrereads hfits, hgreeting hname hfits⟩

/-- A greeting of an old peer stops after the nonce, here with zeros only. It is written longer than
it was, and read as the same greeting again. -/
theorem payload_of_old_greeting :
    ∃ read, ("version", read) ∈ reads ∧ ∃ message after payload,
      read ParseConfig.eager (Reader.ofBytes (List.replicate 80 0)) = .ok message after ∧
        Message.payload.answer message = .ok payload ∧ payload.length = 86 ∧
          message.Rereads (PayloadParser.ofRead read) payload ∧
            ¬Version.Complete (List.replicate 80 0) := by
  have hmem : ("version", _) ∈ reads := List.mem_cons_self
  obtain ⟨-, h⟩ := payload_of_read
  obtain ⟨-, -, payload, hpayload, -, hgreeting⟩ :=
    h _ hmem ParseConfig.eager (List.replicate 80 0) _ _ rfl
  have hlength : payload.length = 86 := by
    injection hpayload with hpayload
    rw [← hpayload]
    rfl
  obtain ⟨hrereads, hcomplete⟩ := hgreeting rfl (by rw [hlength]; decide)
  refine ⟨_, hmem, _, _, payload, rfl, hpayload, hlength, hrereads, ?_⟩
  rw [← hcomplete]
  intro hsame
  have hshort := congrArg List.length hsame
  rw [hlength] at hshort
  contradiction

end Message

end CoinWire
