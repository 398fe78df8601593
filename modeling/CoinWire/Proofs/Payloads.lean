import Mathlib
import CoinWire.Proofs.Greeting
import CoinWire.Proofs.Holding.Message

/-!
# Payload formats

Every parser is a read, which leaves the cursor where the message ends. Each read agrees with one of
plain messages, and all of those but two accept exactly the encodings of the regular messages of
their command. A ping may be empty, but only if nothing lies ahead, and a greeting has the law of
its own.
-/

namespace CoinWire

open Holder Read

/-! ## Regular messages -/

namespace PlainMessage

def command : PlainMessage → String
  | version _ => "version"
  | verack => "verack"
  | addr _ => "addr"
  | inv _ => "inv"
  | getData _ => "getdata"
  | notFound _ => "notfound"
  | getBlocks _ => "getblocks"
  | getHeaders _ => "getheaders"
  | headers _ => "headers"
  | block _ => "block"
  | tx _ => "tx"
  | ping _ => "ping"
  | pong _ => "pong"
  | getAddr => "getaddr"
  | memPool => "mempool"

/-- What a parser asks of a message: limits, the time of peers where there must be one and where
there is none, and blocks with the right body. -/
def Regular : PlainMessage → Prop
  | version greeting => greeting.receiver.time = none ∧ greeting.sender.time = none
  | addr peers => peers.length ≤ Message.maxPeers ∧ ∀ peer ∈ peers, peer.time.isSome
  | inv items | getData items | notFound items => items.length ≤ Message.maxItems
  | getBlocks locator | getHeaders locator => locator.hashes.length ≤ Locator.maxHashes
  | headers blocks => blocks.length ≤ Message.maxHeaders ∧
      ∀ block ∈ blocks, ∃ body, block.body = some body ∧ body.transactions = []
  | block whole => whole.body.isSome
  | verack | tx _ | ping _ | pong _ | getAddr | memPool => True

/-- Every list of the message is short enough to be counted. -/
def Fits : PlainMessage → Prop
  | version greeting => Countable (Text.Utf8.encode greeting.userAgent)
  | headers blocks => ∀ block ∈ blocks, block.Fits
  | block whole => whole.Fits
  | tx transaction => transaction.Fits
  | _ => True

/-- A regular message with a short payload fits. -/
theorem fits_of_length_lt {v : PlainMessage} (hregular : v.Regular) (h : v.wire.length < 2 ^ 64) :
    v.Fits := by
  cases v with
  | version greeting =>
    rw [wire, Version.wire_eq] at h
    simp only [List.length_append] at h
    exact Bytes.countable_of_length_counted (by omega)
  | headers blocks =>
    intro block hblock
    obtain ⟨body, hbody, -⟩ := hregular.2 block hblock
    apply PlainBlock.fits_of_length_lt hbody
    obtain ⟨front, back, rfl⟩ := List.append_of_mem hblock
    simp only [wire, Message.list, List.flatMap_append, List.flatMap_cons, List.length_append] at h
    omega
  | block whole =>
    obtain ⟨body, hbody⟩ := Option.isSome_iff_exists.1 hregular
    exact PlainBlock.fits_of_length_lt hbody h
  | tx transaction => exact transaction.fits_of_length_lt h
  | _ => trivial

end PlainMessage

theorem Message.Holds.command_eq {message : Message} {v : PlainMessage} (h : message.Holds v) :
    message.command = v.command := by
  cases h <;> rfl

/-! ## Parsers as reads -/

namespace Message

/-- Every command has one read. -/
theorem lookup_reads : ∀ entry ∈ reads, reads.lookup entry.1 = some entry.2 := by
  simp only [reads, List.forall_mem_cons]
  exact ⟨rfl, rfl, rfl, rfl, rfl, rfl, rfl, rfl, rfl, rfl, rfl, rfl, rfl, rfl, rfl, nofun⟩

theorem read_version_of_mem {read : ParseConfig → Read Message} (h : ("version", read) ∈ reads) :
    read = fun _ ↦ (do return .version (← Version.read)) := by
  have hlookup := lookup_reads _ h
  injection hlookup with hread
  exact hread.symm

end Message

theorem PayloadParser.lookup_defaults (name : String) :
    defaults.lookup name = (Message.reads.lookup name).map ofRead := by
  unfold defaults
  induction Message.reads with
  | nil => rfl
  | cons entry entries ih =>
    rw [List.map_cons, List.lookup_cons, List.lookup_cons, ih]
    dsimp only [Prod.map_fst, Prod.map_snd, id]
    cases name == entry.1 <;> rfl

/-! ## Blocks without transactions -/

namespace PlainBlock

/-- The block has a body, and its list of transactions is empty. -/
def HasEmptyBody (block : PlainBlock) : Prop :=
  ∃ body, block.body = some body ∧ body.transactions = []

/-- A header, a count and the length of a signature. -/
theorem minSize_le_length_wire (block : PlainBlock) (h : block.HasEmptyBody) :
    max (Header.size + 2) 1 ≤ block.wire.length := by
  obtain ⟨body, hbody, -⟩ := h
  have hcount := VarInt.size_pos (UInt64.ofNat body.transactions.length)
  have hsignature := VarInt.size_pos (UInt64.ofNat body.signature.length)
  simp only [wire, hbody, Option.map_some, Option.getD_some, Body.wire, List.length_append,
    Header.length_wire, VarInt.length_ofLength, Bytes.length_counted, Bytes.countedSize,
    VarInt.lengthSize, Header.size]
  omega

def readEmpty : Read PlainBlock := do
  let block ← PlainBlock.read
  match PlainBlock.askBody (fun body ↦ .ok body.transactions.length) block with
  | .error e => throw e.error
  | .ok count =>
    if count = 0 then return block else throw (.violation (.headerWithTransactions count))

/-- The reader of headers without transactions accepts blocks with an empty body and nothing else.
-/
theorem accepts_readEmpty :
    Accepts readEmpty id (fun block ↦ block.Fits ∧ block.HasEmptyBody) wire := by
  have hcheck (block : PlainBlock) :
      Accepts (match PlainBlock.askBody (fun body ↦ .ok body.transactions.length) block with
        | .error e => throw e.error
        | .ok count =>
          if count = 0 then return block
          else throw (.violation (.headerWithTransactions count)) : Read PlainBlock)
        (fun _ : Unit ↦ block) (fun _ ↦ block.HasEmptyBody) (fun _ ↦ []) := by
    obtain ⟨header, body⟩ := block
    cases body with
    | none =>
      intro reader b reader'
      constructor
      · intro hread
        contradiction
      · rintro ⟨_, ⟨body, hbody, -⟩, -⟩
        contradiction
    | some body =>
      have h := (Accepts.pure (PlainBlock.mk header (some body))).guard
        (p := body.transactions.length = 0)
        (.violation (.headerWithTransactions body.transactions.length))
      apply h.reindex id
      · intro _
        rfl
      · intro _
        simp [HasEmptyBody]
      · intro _ _
        rfl
      · intro named _
        exact ⟨named, rfl⟩
  have h := PlainBlock.accepts_read.bind hcheck
  apply h.reindex fun block ↦ (block, ())
  · intro block
    rfl
  · intro block
    rfl
  · intro block _
    exact List.append_nil _
  · rintro ⟨block, _⟩ _
    exact ⟨block, rfl⟩

end PlainBlock

theorem Block.readEmpty_agrees (config : ParseConfig) :
    Agrees (readEmpty config) PlainBlock.readEmpty Holder.Holds := by
  apply (Block.read_agrees config).bind
  intro block v hblock
  obtain ⟨block', hblock', -, ⟨count, _, hcount, hcount', rfl⟩ | ⟨e, he, he'⟩⟩ :=
    Block.looks_transactionCount block v hblock
  · rw [hcount, hcount']
    dsimp only
    split_ifs
    · exact .pure hblock'
    · intro reader
      exact .inr ⟨_, _, reader, reader, rfl, rfl, rfl⟩
  · rw [he, he']
    intro reader
    exact .inr ⟨_, _, reader, reader, rfl, rfl, rfl⟩

/-! ## What a parser recovers -/

/-- The read takes the encoding of a value that fits off the front of a payload and makes a message
that holds the plain message of it, and it does so wherever such an encoding is all there is. -/
structure Recovers {γ : Type} (read : ParseConfig → Read Message) (make : γ → PlainMessage)
    (Fits : γ → Prop) : Prop where
  sound : ∀ config {source message after},
    read config (Reader.ofBytes source) = .ok message after →
      ∃ c, Fits c ∧ message.Holds (make c) ∧ (make c).wire <+: source ∧
        after = (Reader.ofBytes source).advance (make c).wire.length
  complete : ∀ {c} config, Fits c →
    ∃ message after, read config (Reader.ofBytes (make c).wire) = .ok message after ∧
      message.Holds (make c)

namespace Recovers

variable {γ : Type} {read : ParseConfig → Read Message} {make : γ → PlainMessage}
  {Fits : γ → Prop}

/-- A parser that agrees with a reader of plain values recovers what that reader accepts. -/
theorem of_agrees {plain : Read γ} (hplain : Accepts plain id Fits fun c ↦ (make c).wire)
    (h : ∀ config, Agrees (read config) plain fun message c ↦ message.Holds (make c)) :
    Recovers read make Fits where
  sound := by
    intro config source message after hread
    obtain ⟨c, hholds, hfits, hahead, hafter⟩ := (h config).exists_of_ok hplain hread
    exact ⟨c, hfits, hholds, hahead, hafter⟩
  complete := by
    intro c config hfits
    have hahead : (make c).wire <+: (Reader.ofBytes (make c).wire).ahead := List.prefix_rfl
    obtain ⟨message, hread, hholds⟩ := (h config).ok_of_accepts hplain hfits hahead
    exact ⟨message, _, hread, hholds⟩

/-- A message without nodes stands for itself. -/
theorem of_accepts {plain : Read γ} {wrap : γ → Message}
    (hplain : Accepts plain id Fits fun c ↦ (make c).wire)
    (hwrap : ∀ c, (wrap c).Holds (make c)) :
    Recovers (fun _ ↦ do return wrap (← plain)) make Fits := by
  apply of_agrees hplain
  intro config
  apply (Agrees.refl plain).answer_left
  rintro c _ rfl
  exact hwrap c

/-- A payload that does not matter. -/
theorem constant {message : Message} {v : PlainMessage} (hholds : message.Holds v)
    (hwire : v.wire = []) :
    Recovers (fun _ ↦ return message) (fun _ : Unit ↦ v) fun _ ↦ True := by
  have hplain : Accepts (pure ()) id (fun _ : Unit ↦ True) fun _ ↦ v.wire := by
    rw [hwire]
    exact Accepts.pure ()
  exact of_accepts hplain fun _ ↦ hholds

/-- A list of inventory items is recovered if it is within the limit. -/
theorem items {make : List InventoryItem → PlainMessage} {wrap : List InventoryItem → Message}
    (hwire : ∀ items, (make items).wire = Message.list InventoryItem.wire items)
    (hwrap : ∀ items, (wrap items).Holds (make items)) :
    Recovers (fun _ ↦ do return wrap (← Message.readItems)) make
      fun items ↦ items.length ≤ Message.maxItems := by
  have hplain : Accepts Message.readItems id
      (fun items ↦ items.length ≤ Message.maxItems ∧ ∀ item ∈ items, True)
      (Message.list InventoryItem.wire) := by
    apply accepts_limited InventoryItem.accepts_read _ (by decide)
    intro item _
    rw [item.length_wire]
    decide
  apply of_accepts _ hwrap
  simp only [hwire]
  simpa using hplain

theorem locator {make : Locator → PlainMessage} {wrap : Locator → Message}
    (hwire : ∀ locator, (make locator).wire = locator.wire)
    (hwrap : ∀ locator, (wrap locator).Holds (make locator)) :
    Recovers (fun _ ↦ do return wrap (← Locator.read)) make
      fun locator ↦ locator.hashes.length ≤ Locator.maxHashes := by
  apply of_accepts _ hwrap
  simp only [hwire]
  exact Locator.accepts_read

/-- A list of peers is recovered if it is within the limit and each peer has a time. -/
theorem addr :
    Recovers (fun _ ↦ Message.readAddr) .addr
      fun peers ↦ peers.length ≤ Message.maxPeers ∧ ∀ peer ∈ peers, peer.time.isSome := by
  have hplain : Accepts (limited Message.maxPeers PeerAddress.timedSize "address"
      (PeerAddress.read true)) id
      (fun peers ↦ peers.length ≤ Message.maxPeers ∧ ∀ peer ∈ peers, peer.time.isSome = true)
      (Message.list PeerAddress.wire) := by
    apply accepts_limited (PeerAddress.accepts_read true) _ (by decide)
    intro peer hpeer
    rw [peer.length_wire, PeerAddress.encodedLength, if_pos hpeer]
    decide
  have h : Recovers _ PlainMessage.addr _ := of_accepts hplain Message.Holds.addr
  simpa only [Message.readAddr, limited, bind_assoc] using h

/-- A list of blocks is recovered if it is within the limit and each block has an empty body and
fits. -/
theorem headers :
    Recovers Message.readHeaders .headers
      fun blocks ↦ blocks.length ≤ Message.maxHeaders ∧
        ∀ block ∈ blocks, block.Fits ∧ block.HasEmptyBody := by
  have hplain : Accepts (limited Message.maxHeaders (Header.size + 2) "header"
      PlainBlock.readEmpty) id
      (fun blocks ↦ blocks.length ≤ Message.maxHeaders ∧
        ∀ block ∈ blocks, block.Fits ∧ block.HasEmptyBody) (Message.list PlainBlock.wire) := by
    apply accepts_limited PlainBlock.accepts_readEmpty _ (by decide)
    rintro block ⟨-, hempty⟩
    exact block.minSize_le_length_wire hempty
  apply of_agrees hplain
  intro config
  apply (Agrees.refl (countUpTo Message.maxHeaders (Header.size + 2) "header")).bind
  rintro count _ rfl
  apply ((Block.readEmpty_agrees config).times count).answer_left
  intro blocks values hblocks
  exact .headers hblocks

theorem block :
    Recovers (fun config ↦ do return .block (← Block.read config)) .block PlainBlock.Fits := by
  apply of_agrees PlainBlock.accepts_read
  intro config
  apply (Block.read_agrees config).answer_left
  intro whole value hholds
  exact .block hholds

theorem tx : Recovers (fun config ↦ do return .tx (← Node.read config)) .tx Tx.Fits := by
  apply of_agrees Tx.accepts_read
  intro config
  apply (Node.read_agrees config).answer_left
  rintro transaction value ⟨hholds, -⟩
  exact .tx hholds

theorem pong : Recovers (fun _ ↦ do return .pong (← uint64)) .pong fun _ ↦ True :=
  of_accepts accepts_uint64 Message.Holds.pong

/-- An empty ping is read where nothing lies ahead, and there only. -/
theorem ping : Recovers (fun _ ↦ Message.readPing) .ping fun _ ↦ True := by
  have hnonce : Recovers (fun _ ↦ do return .ping (some (← uint64)))
      (fun nonce ↦ .ping (some nonce)) fun _ ↦ True :=
    of_accepts accepts_uint64 fun nonce ↦ .ping (some nonce)
  refine ⟨?_, ?_⟩
  · intro config source message after hread
    cases source with
    | nil =>
      injection hread with hmessage hafter
      subst hmessage hafter
      exact ⟨none, trivial, .ping none, List.prefix_rfl, rfl⟩
    | cons first rest =>
      obtain ⟨nonce, -, hholds, hahead, hafter⟩ := hnonce.sound config hread
      exact ⟨some nonce, trivial, hholds, hahead, hafter⟩
  · intro nonce config _
    cases nonce with
    | none => exact ⟨.ping none, _, rfl, .ping none⟩
    | some nonce => exact hnonce.complete config trivial

end Recovers

/-! ## All commands -/

/-- The greeting that was read is held, and the addresses in it carry no time. -/
theorem Message.holds_of_read_version {source : Bytes} {message : Message} {after : Reader}
    (h : (do return .version (← Version.read) : Read Message) (Reader.ofBytes source) =
      .ok message after) :
    ∃ greeting, Version.read (Reader.ofBytes source) = .ok greeting after ∧
      message = .version greeting ∧ (PlainMessage.version greeting).Regular := by
  obtain ⟨greeting, middle, hgreeting, hlast⟩ := Access.bind_eq_ok_iff.1 h
  injection hlast with hmessage hafter
  subst hmessage hafter
  exact ⟨greeting, hgreeting, rfl, (Version.front_of_read hgreeting).1⟩

/-- What the read of the command makes of a payload holds a regular message of the command, which is
written as the bytes that were read. -/
def Reproduces (name : String) (read : ParseConfig → Read Message) : Prop :=
  ∀ config {source message after}, read config (Reader.ofBytes source) = .ok message after →
    ∃ v : PlainMessage, message.Holds v ∧ v.command = name ∧ v.Regular ∧ v.Fits ∧
      v.wire <+: source ∧ after = (Reader.ofBytes source).advance v.wire.length

theorem Recovers.reproduces {γ : Type} {read : ParseConfig → Read Message} {make : γ → PlainMessage}
    {Fits : γ → Prop} {name : String} (h : Recovers read make Fits)
    (hmake : ∀ c, Fits c → (make c).command = name ∧ (make c).Regular ∧ (make c).Fits) :
    Reproduces name read := by
  intro config source message after hread
  obtain ⟨c, hfits, hholds, hahead⟩ := h.sound config hread
  obtain ⟨hname, hregular, hshort⟩ := hmake c hfits
  exact ⟨make c, hholds, hname, hregular, hshort, hahead⟩

/-- Every parser but the one for greetings reproduces the payloads it accepts. -/
theorem reproduces_of_mem : ∀ entry ∈ Message.reads, entry.1 ≠ "version" →
    Reproduces entry.1 entry.2 := by
  simp only [Message.reads, List.forall_mem_cons]
  refine ⟨absurd rfl, ?_, ?_, ?_, ?_, ?_, ?_, ?_, ?_, ?_, ?_, ?_, ?_, ?_, ?_, by simp⟩
  · intro _
    exact (Recovers.constant .verack rfl).reproduces fun _ _ ↦ ⟨rfl, trivial, trivial⟩
  · intro _
    exact Recovers.addr.reproduces fun _ h ↦ ⟨rfl, h, trivial⟩
  · intro _
    exact (Recovers.items (fun _ ↦ rfl) .inv).reproduces fun _ h ↦ ⟨rfl, h, trivial⟩
  · intro _
    exact (Recovers.items (fun _ ↦ rfl) .getData).reproduces fun _ h ↦ ⟨rfl, h, trivial⟩
  · intro _
    exact (Recovers.items (fun _ ↦ rfl) .notFound).reproduces fun _ h ↦ ⟨rfl, h, trivial⟩
  · intro _
    exact (Recovers.locator (fun _ ↦ rfl) .getBlocks).reproduces fun _ h ↦ ⟨rfl, h, trivial⟩
  · intro _
    exact (Recovers.locator (fun _ ↦ rfl) .getHeaders).reproduces fun _ h ↦ ⟨rfl, h, trivial⟩
  · intro _
    exact Recovers.headers.reproduces fun _ h ↦
      ⟨rfl, ⟨h.1, fun block hblock ↦ (h.2 block hblock).2⟩, fun block hblock ↦ (h.2 block hblock).1⟩
  · intro _
    apply Recovers.block.reproduces
    rintro whole ⟨body, hbody, hfits⟩
    exact ⟨rfl, Option.isSome_iff_exists.2 ⟨body, hbody⟩, body, hbody, hfits⟩
  · intro _
    exact Recovers.tx.reproduces fun _ h ↦ ⟨rfl, trivial, h⟩
  · intro _
    exact Recovers.ping.reproduces fun _ _ ↦ ⟨rfl, trivial, trivial⟩
  · intro _
    exact Recovers.pong.reproduces fun _ _ ↦ ⟨rfl, trivial, trivial⟩
  · intro _
    exact (Recovers.constant .getAddr rfl).reproduces fun _ _ ↦ ⟨rfl, trivial, trivial⟩
  · intro _
    exact (Recovers.constant .memPool rfl).reproduces fun _ _ ↦ ⟨rfl, trivial, trivial⟩

/-- Whatever the read of a command makes of a payload holds a regular message of the command. It is
written as the bytes that were read, a greeting only if they were complete. -/
theorem exists_regular_of_read {name : String} {read : ParseConfig → Read Message}
    (hmem : (name, read) ∈ Message.reads) {config : ParseConfig} {source : Bytes}
    {message : Message} {after : Reader}
    (h : read config (Reader.ofBytes source) = .ok message after) :
    ∃ v : PlainMessage, message.Holds v ∧ v.command = name ∧ v.Regular ∧
      after.sliceFrom 0 ++ after.ahead = source ∧
      (name ≠ "version" → v.Fits ∧ v.wire = after.sliceFrom 0) ∧
      (name = "version" → v.Fits → (v.wire = after.sliceFrom 0 ↔ Version.Complete source)) := by
  by_cases hname : name = "version"
  · subst hname
    rw [Message.read_version_of_mem hmem] at h
    obtain ⟨greeting, hread, rfl, hregular⟩ := Message.holds_of_read_version h
    obtain ⟨count, rfl⟩ := Version.moves_read _ _ _ hread
    exact ⟨.version greeting, .version greeting, rfl, hregular,
      Reader.sliceFrom_append_ahead count source, fun hne ↦ absurd rfl hne,
      fun _ hagent ↦ Version.wire_eq_sliceFrom_iff hread hagent⟩
  · obtain ⟨v, hholds, hcommand, hregular, hfits, hahead, rfl⟩ :=
      reproduces_of_mem _ hmem hname config h
    have hwire : v.wire = ((Reader.ofBytes source).advance v.wire.length).sliceFrom 0 := by
      rw [Reader.sliceFrom_zero_advance]
      exact List.prefix_iff_eq_take.1 hahead
    exact ⟨v, hholds, hcommand, hregular, Reader.sliceFrom_append_ahead _ source,
      fun _ ↦ ⟨hfits, hwire⟩, fun hsame ↦ absurd hsame hname⟩

/-- A regular message is read from its payload by the read of its command. -/
theorem exists_read_of_regular {v : PlainMessage} (hregular : v.Regular) (hfits : v.Fits) :
    ∃ read, Message.reads.lookup v.command = some read ∧ ∀ config, ∃ message after,
      read config (Reader.ofBytes v.wire) = .ok message after ∧ message.Holds v := by
  cases v with
  | version greeting =>
    refine ⟨_, rfl, ?_⟩
    intro config
    have hread : Version.read (Reader.ofBytes greeting.wire) = _ :=
      Version.read_of_isPrefix hregular hfits List.prefix_rfl
    exact ⟨.version greeting, _, Access.bind_eq_ok_iff.2 ⟨_, _, hread, rfl⟩, .version greeting⟩
  | verack =>
    exact ⟨_, rfl, fun config ↦ (Recovers.constant .verack rfl).complete (c := ()) config trivial⟩
  | addr peers => exact ⟨_, rfl, fun config ↦ Recovers.addr.complete config hregular⟩
  | inv items =>
    exact ⟨_, rfl, fun config ↦ (Recovers.items (fun _ ↦ rfl) .inv).complete config hregular⟩
  | getData items =>
    exact ⟨_, rfl, fun config ↦ (Recovers.items (fun _ ↦ rfl) .getData).complete config hregular⟩
  | notFound items =>
    exact ⟨_, rfl, fun config ↦ (Recovers.items (fun _ ↦ rfl) .notFound).complete config hregular⟩
  | getBlocks locator =>
    exact ⟨_, rfl, fun config ↦
      (Recovers.locator (fun _ ↦ rfl) .getBlocks).complete config hregular⟩
  | getHeaders locator =>
    exact ⟨_, rfl, fun config ↦
      (Recovers.locator (fun _ ↦ rfl) .getHeaders).complete config hregular⟩
  | headers blocks =>
    exact ⟨_, rfl, fun config ↦ Recovers.headers.complete config
      ⟨hregular.1, fun block hblock ↦ ⟨hfits block hblock, hregular.2 block hblock⟩⟩⟩
  | block whole => exact ⟨_, rfl, fun config ↦ Recovers.block.complete config hfits⟩
  | tx transaction => exact ⟨_, rfl, fun config ↦ Recovers.tx.complete config hfits⟩
  | ping nonce => exact ⟨_, rfl, fun config ↦ Recovers.ping.complete config trivial⟩
  | pong nonce => exact ⟨_, rfl, fun config ↦ Recovers.pong.complete config trivial⟩
  | getAddr =>
    exact ⟨_, rfl, fun config ↦ (Recovers.constant .getAddr rfl).complete (c := ()) config trivial⟩
  | memPool =>
    exact ⟨_, rfl, fun config ↦ (Recovers.constant .memPool rfl).complete (c := ()) config trivial⟩

end CoinWire
