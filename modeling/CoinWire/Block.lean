import CoinWire.Hash.Merkle
import CoinWire.Transaction

/-!
# Blocks

A block is a header of eighty bytes and a body of transactions with the signature that follows
them. Header and body are nodes apart: looking at the header parses no transaction, and editing
a transaction leaves the header's bytes alone. The bytes of a whole block are held only while
both parts are cached. The Merkle root of the header is a field like any other; no edit of the
transactions changes it.
-/

namespace CoinWire

structure Header where
  version : UInt32
  prev : Hash
  merkleRoot : Hash
  time : UInt32
  /-- Difficulty target in compact form. -/
  bits : UInt32
  nonce : UInt32
deriving DecidableEq

namespace Header

/-- Number of bytes on the wire. -/
def size : Nat := 80

def wire (header : Header) : Bytes :=
  Bytes.ofUInt32 header.version ++ header.prev.toBytes ++ header.merkleRoot.toBytes ++
    Bytes.ofUInt32 header.time ++ Bytes.ofUInt32 header.bits ++ Bytes.ofUInt32 header.nonce

@[simp]
theorem length_wire (header : Header) : header.wire.length = size := by
  simp [wire, size, header.prev.length_toBytes, header.merkleRoot.length_toBytes]

instance : Layout Header where
  scan := Read.skip size
  parse _ := do
    let version ← Read.uint32
    let prev ← Read.take 32
    let merkleRoot ← Read.take 32
    let time ← Read.uint32
    let bits ← Read.uint32
    let nonce ← Read.uint32
    return ⟨version, prev, merkleRoot, time, bits, nonce⟩
  encodedLength _ := size
  encode := do return (← get).wire
  adopt _ header := header
  compare := Compared.plain

end Header

/-- A block's body without caches. -/
@[ext]
structure Body where
  transactions : List Tx
  signature : Bytes
deriving DecidableEq

/-- The plain encoding. -/
def Body.wire (body : Body) : Bytes :=
  VarInt.ofLength body.transactions ++ body.transactions.flatMap Tx.wire ++
    body.signature.counted

/-- A block without caches; no body if only the header is known. -/
@[ext]
structure PlainBlock where
  header : Header
  body : Option Body
deriving DecidableEq

/-- The plain encoding. -/
def PlainBlock.wire (block : PlainBlock) : Bytes :=
  block.header.wire ++ (block.body.map Body.wire).getD []

/-- The fields of a body node. -/
structure BodyFields where
  transactions : List Transaction
  signature : Bytes

namespace BodyFields

variable {α : Type}

def onTransactions (access : Access (List Transaction) α) : Access BodyFields α :=
  Access.focus BodyFields.transactions (fun transactions fields ↦ { fields with transactions })
    access

def compare (left right : BodyFields) : Compared BodyFields :=
  let transactions := Compared.lists Node.compare left.transactions right.transactions
  ⟨transactions.equal && decide (left.signature = right.signature),
    { left with transactions := transactions.left },
    { right with transactions := transactions.right }⟩

instance : Layout BodyFields where
  scan := do
    discard (Read.counted TxFields.minSize "transaction" (Layout.scan TxFields))
    Read.skipCounted
  parse config := do
    let transactions ← Read.counted TxFields.minSize "transaction" (Node.read config)
    let signature ← Read.countedBytes
    return ⟨transactions, signature⟩
  encodedLength fields :=
    VarInt.lengthSize fields.transactions.length + Node.totalLength fields.transactions +
      Bytes.countedSize fields.signature.length
  encode := do
    let transactions ← onTransactions (Access.each Node.bytes)
    let fields ← get
    return VarInt.ofLength transactions ++ transactions.flatten ++ fields.signature.counted
  adopt raw fields :=
    let (transactions, _) :=
      Node.adoptEach (raw.drop (VarInt.lengthSize fields.transactions.length)) fields.transactions
    { fields with transactions }
  compare := compare

end BodyFields

structure Block where
  header : Node Header
  body : Option (Node BodyFields)
  /-- The bytes of the whole block. -/
  raw : Option Bytes

namespace Block

variable {α : Type}

/-! ## Construction -/

/-- A block of which only the header is known. -/
def new (header : Header) : Block :=
  ⟨Node.ofFields header ParseConfig.eager, none, none⟩

def read (config : ParseConfig) : Read Block := do
  let start := (← get).position
  let header ← Node.read config
  let body ← Node.read config
  let raw := (← get).sliceFrom start
  return ⟨header, some body, if config.retain then some raw else none⟩

theorem read_apply (config : ParseConfig) (reader : Reader) :
    Block.read config reader =
      match (Node.read config : Read (Node Header)) reader with
      | .ok header middle =>
        match (Node.read config : Read (Node BodyFields)) middle with
        | .ok body after =>
          .ok ⟨header, some body,
            if config.retain then some (after.sliceFrom reader.position) else none⟩ after
        | .error e after => .error e after
      | .error e after => .error e after := by
  unfold Block.read
  change (Node.read config >>= _ : Read Block) reader = _
  rw [Access.bind_apply]
  cases (Node.read config : Read (Node Header)) reader with
  | error e after => rfl
  | ok header middle =>
    dsimp only
    rw [Access.bind_apply]
    cases (Node.read config : Read (Node BodyFields)) middle <;> rfl

/-- Reads a whole block at the front of `bytes`. -/
def ofBytes (bytes : Bytes) (config : ParseConfig) : Except CodecError Block :=
  (read config).answer (Reader.ofBytes bytes)

/-- Reads no more than the header at the front of `bytes`. -/
def ofHeaderBytes (bytes : Bytes) (config : ParseConfig) : Except CodecError Block := do
  return ⟨← Node.ofBytes bytes config, none, none⟩

/-- The same block without its body. -/
def headerOnly (block : Block) : Block :=
  ⟨block.header, none, none⟩

/-! ## Marks -/

def isHeaderOnly (block : Block) : Bool :=
  block.body.isNone

/-- The body is parsed, or there is none. -/
def isBodyParsed (block : Block) : Bool :=
  block.body.all Node.isParsed

/-- The body is cached, or there is none. -/
def isBodyCached (block : Block) : Bool :=
  block.body.all Node.isCached

def isParsed (block : Block) : Bool :=
  block.header.isParsed && block.isBodyParsed

def isCached (block : Block) : Bool :=
  block.header.isCached && block.isBodyCached

/-- Size of the encoding. Nothing is parsed for it. -/
def length (block : Block) : Nat :=
  block.header.length + (block.body.map Node.length).getD 0

/-! ## Looking -/

def onHeader (access : Access (Node Header) α) : Access Block α :=
  Access.focus Block.header (fun header block ↦ { block with header }) access

/-- Works on the body. -/
def onBody (access : Access (Node BodyFields) α) : Access Block α := fun block ↦
  match block.body with
  | none => .error .headerOnly block
  | some body => Access.mapState (fun body' ↦ { block with body := some body' }) (access body)

/-- Works on the body, if there is one. -/
def onBody? (access : Access (Node BodyFields) α) : Access Block (Option α) := do
  if (← get).isHeaderOnly then return none else some <$> onBody access

theorem onBody?_apply (access : Access (Node BodyFields) α) (block : Block) :
    onBody? access block =
      match block.body with
      | none => .ok none block
      | some body =>
        Access.mapState (fun body' ↦ { block with body := some body' })
          ((some <$> access) body) := by
  obtain ⟨header, body, raw⟩ := block
  cases body with
  | none => rfl
  | some body =>
    change (some <$> onBody access) _ = _
    rw [Access.map_apply]
    dsimp only [onBody]
    rw [Access.map_apply]
    cases access body <;> rfl

/-- The header's fields. -/
def headerFields : Access Block Header :=
  onHeader Node.fields

/-- Double SHA-256 of the header. -/
def hash : Access Block Hash :=
  onHeader Node.hash

def lookTransactions (access : Access (List Transaction) α) : Access Block α :=
  onBody (Node.look (BodyFields.onTransactions access))

def transactionCount : Access Block Nat :=
  lookTransactions do return (← get).length

/-- Looks at one transaction, if there is one at `index`. -/
def lookTransaction? (index : Nat) (access : Access Transaction α) : Access Block (Option α) :=
  lookTransactions (Access.at? index access)

def signature : Access Block Bytes :=
  onBody do return (← Node.fields).signature

/-- Merkle root of the transactions there are now. -/
def computeMerkleRoot : Access Block Hash := do
  return Hash.merkleRoot (← lookTransactions (Access.each Node.hash))

def ensureParsed : Access Block Unit := do
  discard (onHeader Node.fields)
  discard (onBody? Node.fields)

/-- Every field of the block and of all below it. -/
def contents : Access Block PlainBlock := do
  let header ← headerFields
  let body ← onBody? (Node.look do
    let transactions ← BodyFields.onTransactions (Access.each Transaction.contents)
    return ⟨transactions, (← get).signature⟩)
  return ⟨header, body⟩

/-- The encoding, put together from those of the parts. -/
def encode : Access Block Bytes := do
  let header ← onHeader Node.bytes
  let body ← onBody? Node.bytes
  return header ++ body.getD []

/-- The encoding, by copy where it is held. -/
def bytes : Access Block Bytes := do
  match (← get).raw with
  | some raw => return raw
  | none => encode

theorem bytes_apply (block : Block) :
    bytes block =
      match block.raw with
      | some raw => .ok raw block
      | none => encode block := by
  change (match block.raw with
    | some raw => pure raw
    | none => encode : Access Block Bytes) block = _
  cases block.raw <;> rfl

def compare (left right : Block) : Compared Block :=
  let header := Node.compare left.header right.header
  let left := { left with header := header.left }
  let right := { right with header := header.right }
  if header.equal then
    match left.body, right.body with
    | some a, some b =>
      let body := Node.compare a b
      ⟨body.equal, { left with body := some body.left }, { right with body := some body.right }⟩
    | none, none => ⟨true, left, right⟩
    | _, _ => ⟨false, left, right⟩
  else ⟨false, left, right⟩

/-! ## Editing -/

/-- The bytes of the whole block are dropped before any edit. -/
def dropRaw : Access Block Unit :=
  modify fun block ↦ { block with raw := none }

def editHeader (access : Access Header α) : Access Block α := do
  dropRaw
  onHeader (Node.edit access)

def editBody (access : Access BodyFields α) : Access Block α := do
  dropRaw
  onBody (Node.edit access)

theorem editHeader_apply (access : Access Header α) (block : Block) :
    editHeader access block = onHeader (Node.edit access) { block with raw := none } := rfl

theorem editBody_apply (access : Access BodyFields α) (block : Block) :
    editBody access block = onBody (Node.edit access) { block with raw := none } := rfl

def setVersion (version : UInt32) : Access Block Unit :=
  editHeader (modify fun header ↦ { header with version })

def setPrev (prev : Hash) : Access Block Unit :=
  editHeader (modify fun header ↦ { header with prev })

def setMerkleRoot (merkleRoot : Hash) : Access Block Unit :=
  editHeader (modify fun header ↦ { header with merkleRoot })

def setTime (time : UInt32) : Access Block Unit :=
  editHeader (modify fun header ↦ { header with time })

def setBits (bits : UInt32) : Access Block Unit :=
  editHeader (modify fun header ↦ { header with bits })

def setNonce (nonce : UInt32) : Access Block Unit :=
  editHeader (modify fun header ↦ { header with nonce })

def setSignature (signature : Bytes) : Access Block Unit :=
  editBody (modify fun fields ↦ { fields with signature })

def editTransaction (index : Nat) (access : Access Transaction α) : Access Block α :=
  editBody (BodyFields.onTransactions (Access.atIndex index access))

/-- The block with an empty body, if it had none. -/
def withBody (block : Block) : Block :=
  if block.isHeaderOnly then
    { block with body := some (Node.ofFields ⟨[], []⟩ block.header.config) }
  else block

/-- Appends a transaction. A block without a body gets an empty one first. -/
def addTransaction (transaction : Transaction) : Access Block Unit := do
  modify withBody
  editBody (BodyFields.onTransactions (Access.append transaction))

def removeTransaction (index : Nat) : Access Block Transaction :=
  editBody (BodyFields.onTransactions (Access.detach index))

/-- Drops all bytes of header and body, so that the next encoding is made from their fields. -/
def invalidate : Access Block Unit := do
  dropRaw
  onHeader Node.invalidate
  discard (onBody? Node.invalidate)

theorem invalidate_apply (block : Block) :
    invalidate block =
      match Node.invalidate block.header with
      | .ok _ header => (discard (onBody? Node.invalidate)) { block with header, raw := none }
      | .error e header => .error e { block with header, raw := none } := by
  change (onHeader Node.invalidate >>= _ : Access Block Unit) { block with raw := none } = _
  rw [Access.bind_apply]
  unfold onHeader Access.focus
  dsimp only
  cases Node.invalidate block.header <;> rfl

/-- Takes `raw` for the encoding of those parts that are to be kept and are not cached. -/
def adopt (raw : Bytes) (block : Block) : Block :=
  let split := block.header.length
  let block := { block with
    header := block.header.adoptIfKept (raw.take split)
    body := block.body.map (Node.adoptIfKept (raw.drop split)) }
  if block.isCached then { block with raw := some raw } else block

/-- The encoding, which is kept where the configuration says so. -/
def serialize : Access Block Bytes := do
  match (← get).raw with
  | some raw => return raw
  | none =>
    let raw ← encode
    modify (adopt raw)
    return raw

theorem serialize_apply (block : Block) :
    serialize block =
      match block.raw with
      | some raw => .ok raw block
      | none =>
        match encode block with
        | .ok raw block' => .ok raw (block'.adopt raw)
        | .error e block' => .error e block' := by
  unfold serialize
  rw [Access.bind_apply]
  change (match block.raw with | some raw => _ | none => _ : Access Block Bytes) block = _
  cases block.raw with
  | some raw => rfl
  | none =>
    dsimp only
    rw [Access.bind_apply]
    cases encode block <;> rfl

end Block

end CoinWire
