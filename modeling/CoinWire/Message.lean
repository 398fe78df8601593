import CoinWire.Block
import CoinWire.Inventory
import CoinWire.Network
import CoinWire.Peer

/-!
# Messages

Each command of the protocol has a payload format. Blocks and transactions are encoded as nodes,
so that what was not edited is copied; every other payload is built afresh. A message of a
command that nobody reads keeps its bytes and cannot be written.
-/

namespace CoinWire

/-! ## Version messages -/

/-- The greeting of a connection. -/
structure Version where
  version : UInt32
  services : UInt64
  time : Int64
  /-- Address of the peer that the message goes to. -/
  receiver : PeerAddress
  /-- Address of the peer that the message comes from. -/
  sender : PeerAddress
  /-- A random number, by which a peer knows its own greeting. -/
  nonce : UInt64
  userAgent : String
  /-- Height of the sender's best chain. -/
  height : UInt32
  /-- Whether transactions may be sent before a filter is set. -/
  relay : Bool
deriving DecidableEq

namespace Version

def defaultUserAgent : String := "/paycoin-rs:0.1.0/"

/-- The greeting of a local node. -/
def new (params : NetworkParams) (height : UInt32) (nonce : UInt64) (time : Int64) : Version where
  version := params.protocolVersion
  services := 0
  time := time
  receiver := PeerAddress.localhost params.port 0
  sender := PeerAddress.localhost params.port 0
  nonce := nonce
  userAgent := defaultUserAgent
  height := height
  relay := true

def wire (version : Version) : Bytes :=
  Bytes.ofUInt32 version.version ++ Bytes.ofUInt64 version.services ++
    Bytes.ofInt64 version.time ++ version.receiver.wire ++ version.sender.wire ++
    Bytes.ofUInt64 version.nonce ++ Bytes.counted (Text.Utf8.encode version.userAgent) ++
    Bytes.ofUInt32 version.height ++ [if version.relay then 1 else 0]

/-- Reads a field that old peers leave out. -/
def optional {α : Type} (absent : α) (field : Read α) : Read α := do
  if (← get).ahead.isEmpty then return absent else field

def read : Read Version := do
  let version ← Read.uint32
  let services ← Read.uint64
  let time ← Read.int64
  let receiver ← PeerAddress.read false
  let sender ← PeerAddress.read false
  let nonce ← Read.uint64
  let userAgent ← optional "" Read.countedText
  let height ← optional 0 Read.uint32
  let relay ← optional true do return (← Read.byte) != 0
  return { version, services, time, receiver, sender, nonce, userAgent, height, relay }

end Version

/-! ## Block locators -/

/-- Where the sender's chain is. -/
structure Locator where
  version : UInt32
  /-- Hashes of blocks, the newest first. -/
  hashes : List Hash
  /-- Hash of the last block wanted, zero for as many as possible. -/
  stop : Hash
deriving DecidableEq

namespace Locator

def maxHashes : Nat := 500

def wire (locator : Locator) : Bytes :=
  Bytes.ofUInt32 locator.version ++ VarInt.ofLength locator.hashes ++
    locator.hashes.flatMap Octets.toBytes ++ locator.stop.toBytes

def read : Read Locator := do
  let version ← Read.uint32
  let count ← Read.countUpTo maxHashes 32 "locator hash"
  let hashes ← Read.times count (Read.take 32)
  let stop ← Read.take 32
  return ⟨version, hashes, stop⟩

end Locator

/-! ## Messages -/

inductive Message where
  | version (version : Version)
  | verack
  | addr (peers : List PeerAddress)
  /-- Things the sender has. -/
  | inv (items : List InventoryItem)
  /-- Things the sender wants. -/
  | getData (items : List InventoryItem)
  /-- Things the sender was asked for and does not have. -/
  | notFound (items : List InventoryItem)
  | getBlocks (locator : Locator)
  | getHeaders (locator : Locator)
  /-- Blocks whose transaction lists are empty. -/
  | headers (blocks : List Block)
  | block (block : Block)
  | tx (transaction : Transaction)
  /-- Old peers send no nonce. -/
  | ping (nonce : Option UInt64)
  | pong (nonce : UInt64)
  | getAddr
  | memPool
  | unknown (command : String) (payload : Bytes)

namespace Message

def command : Message → String
  | .version _ => "version"
  | .verack => "verack"
  | .addr _ => "addr"
  | .inv _ => "inv"
  | .getData _ => "getdata"
  | .notFound _ => "notfound"
  | .getBlocks _ => "getblocks"
  | .getHeaders _ => "getheaders"
  | .headers _ => "headers"
  | .block _ => "block"
  | .tx _ => "tx"
  | .ping _ => "ping"
  | .pong _ => "pong"
  | .getAddr => "getaddr"
  | .memPool => "mempool"
  | .unknown name _ => name

/-! ### Writing -/

/-- Items with their number in front. -/
def list {α : Type} (wire : α → Bytes) (items : List α) : Bytes :=
  VarInt.ofLength items ++ items.flatMap wire

/-- The payload. Blocks and transactions keep it where their configuration says so. -/
def payload : Access Message Bytes := fun message ↦
  match message with
  | .version greeting => .ok greeting.wire message
  | .verack => .ok [] message
  | .addr peers => .ok (list PeerAddress.wire peers) message
  | .inv items => .ok (list InventoryItem.wire items) message
  | .getData items => .ok (list InventoryItem.wire items) message
  | .notFound items => .ok (list InventoryItem.wire items) message
  | .getBlocks locator => .ok locator.wire message
  | .getHeaders locator => .ok locator.wire message
  | .headers blocks =>
    let encodings := Access.each Block.bytes
    Access.mapState .headers ((list id <$> encodings) blocks)
  | .block whole => Access.mapState .block (Block.serialize whole)
  | .tx transaction => Access.mapState .tx (Node.serialize transaction)
  | .ping nonce => .ok ((nonce.map Bytes.ofUInt64).getD []) message
  | .pong nonce => .ok (Bytes.ofUInt64 nonce) message
  | .getAddr => .ok [] message
  | .memPool => .ok [] message
  | .unknown name _ => .error (.unknownCommand name) message

/-! ### Comparison -/

/-- Compares two messages. Only messages of one kind are looked into. -/
def compare (left right : Message) : Compared Message :=
  match left, right with
  | .version a, .version b => ⟨decide (a = b), left, right⟩
  | .verack, .verack => ⟨true, left, right⟩
  | .addr a, .addr b => ⟨decide (a = b), left, right⟩
  | .inv a, .inv b => ⟨decide (a = b), left, right⟩
  | .getData a, .getData b => ⟨decide (a = b), left, right⟩
  | .notFound a, .notFound b => ⟨decide (a = b), left, right⟩
  | .getBlocks a, .getBlocks b => ⟨decide (a = b), left, right⟩
  | .getHeaders a, .getHeaders b => ⟨decide (a = b), left, right⟩
  | .headers a, .headers b =>
    let compared := Compared.lists Block.compare a b
    ⟨compared.equal, .headers compared.left, .headers compared.right⟩
  | .block a, .block b =>
    let compared := Block.compare a b
    ⟨compared.equal, .block compared.left, .block compared.right⟩
  | .tx a, .tx b =>
    let compared := Node.compare a b
    ⟨compared.equal, .tx compared.left, .tx compared.right⟩
  | .ping a, .ping b => ⟨decide (a = b), left, right⟩
  | .pong a, .pong b => ⟨decide (a = b), left, right⟩
  | .getAddr, .getAddr => ⟨true, left, right⟩
  | .memPool, .memPool => ⟨true, left, right⟩
  | .unknown a p, .unknown b q => ⟨decide (a = b ∧ p = q), left, right⟩
  | _, _ => ⟨false, left, right⟩

end Message

/-! ## Reading payloads -/

/-- A block whose transaction list must be empty. Looking at the list parses the body. -/
def Block.readEmpty (config : ParseConfig) : Read Block := do
  let block ← Block.read config
  match Block.transactionCount block with
  | .error e _ => throw e
  | .ok count block' =>
    if count = 0 then return block' else throw (.violation (.headerWithTransactions count))

namespace Message

def maxPeers : Nat := 1024

def maxItems : Nat := 50000

def maxHeaders : Nat := 2000

def readAddr : Read Message := do
  let count ← Read.countUpTo maxPeers PeerAddress.timedSize "address"
  return .addr (← Read.times count (PeerAddress.read true))

def readItems : Read (List InventoryItem) := do
  let count ← Read.countUpTo maxItems InventoryItem.size "inventory"
  Read.times count InventoryItem.read

def readHeaders (config : ParseConfig) : Read Message := do
  let count ← Read.countUpTo maxHeaders (Header.size + 2) "header"
  return .headers (← Read.times count (Block.readEmpty config))

/-- Old peers send no nonce. -/
def readPing : Read Message := do
  if (← get).ahead.isEmpty then return .ping none else return .ping (some (← Read.uint64))

/-- The reads of the commands that are understood. -/
def reads : List (String × (ParseConfig → Read Message)) := [
  ("version", fun _ ↦ return .version (← Version.read)),
  ("verack", fun _ ↦ return .verack),
  ("addr", fun _ ↦ readAddr),
  ("inv", fun _ ↦ return .inv (← readItems)),
  ("getdata", fun _ ↦ return .getData (← readItems)),
  ("notfound", fun _ ↦ return .notFound (← readItems)),
  ("getblocks", fun _ ↦ return .getBlocks (← Locator.read)),
  ("getheaders", fun _ ↦ return .getHeaders (← Locator.read)),
  ("headers", readHeaders),
  ("block", fun config ↦ return .block (← Block.read config)),
  ("tx", fun config ↦ return .tx (← Node.read config)),
  ("ping", fun _ ↦ readPing),
  ("pong", fun _ ↦ return .pong (← Read.uint64)),
  ("getaddr", fun _ ↦ return .getAddr),
  ("mempool", fun _ ↦ return .memPool)]

end Message

/-! ## Payload parsers -/

/-- Builds a message from the payload of its command. -/
abbrev PayloadParser := Bytes → ParseConfig → Except CodecError Message

namespace PayloadParser

/-- Reads a message from the front of a payload. What follows it is ignored. -/
def ofRead (read : ParseConfig → Read Message) : PayloadParser := fun payload config ↦
  (read config).answer (Reader.ofBytes payload)

/-- The parsers of the commands that are understood. -/
def defaults : List (String × PayloadParser) :=
  Message.reads.map (Prod.map id ofRead)

end PayloadParser

end CoinWire
