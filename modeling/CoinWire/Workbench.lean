import CoinWire.Report

/-!
# Workbench

A workbench has named slots, each with a block, a transaction, an input or an output. A place
is a slot and a way down from it. Looking at a place parses what it passes; reaching for it
edits what it passes. Operations on single values are applied at places, values are copied
between slots, and children are moved between trees.
-/

namespace CoinWire

/-- A value in a slot. -/
inductive Item where
  | block (block : Block)
  | transaction (transaction : Transaction)
  | input (input : Input)
  | output (output : Output)

/-- A slot and a way down from it. Steps that the value in the slot does not have are left
out. -/
structure Place where
  slot : String
  transaction : Option Nat
  input : Option Nat
  output : Option Nat

/-- What is done at the end of a way, for each kind of value that may be found there. -/
structure Visit (α : Type) where
  block : Access Block α
  transaction : Access Transaction α
  input : Access Input α
  output : Access Output α

namespace Visit

variable {α : Type}

/-! ## Looking -/

def lookTransaction? (place : Place) (visit : Visit α) : Access Transaction (Option α) :=
  match place.input, place.output with
  | some index, _ => Transaction.lookInput? index visit.input
  | none, some index => Transaction.lookOutput? index visit.output
  | none, none => some <$> visit.transaction

def lookBlock? (place : Place) (visit : Visit α) : Access Block (Option α) :=
  match place.transaction with
  | some index => do return (← Block.lookTransaction? index (visit.lookTransaction? place)).join
  | none => some <$> visit.block

/-- Looks at a place in an item; nothing if there is no such place. -/
def look? (place : Place) (visit : Visit α) : Access Item (Option α)
  | .block block => Access.mapState .block (visit.lookBlock? place block)
  | .transaction transaction =>
    Access.mapState .transaction (visit.lookTransaction? place transaction)
  | .input input => Access.mapState .input ((some <$> visit.input) input)
  | .output output => Access.mapState .output ((some <$> visit.output) output)

/-! ## Reaching -/

def reachTransaction (place : Place) (visit : Visit α) : Access Transaction α :=
  match place.input, place.output with
  | some index, _ => Transaction.editInput index visit.input
  | none, some index => Transaction.editOutput index visit.output
  | none, none => visit.transaction

def reachBlock (place : Place) (visit : Visit α) : Access Block α :=
  match place.transaction with
  | some index => Block.editTransaction index (visit.reachTransaction place)
  | none => visit.block

/-- Reaches for a place in an item. -/
def reach (place : Place) (visit : Visit α) : Access Item α
  | .block block => Access.mapState .block (visit.reachBlock place block)
  | .transaction transaction =>
    Access.mapState .transaction (visit.reachTransaction place transaction)
  | .input input => Access.mapState .input (visit.input input)
  | .output output => Access.mapState .output (visit.output output)

/-! ## Visits -/

/-- The value that is found. -/
def found : Visit Item where
  block := Item.block <$> get
  transaction := Item.transaction <$> get
  input := Item.input <$> get
  output := Item.output <$> get

def length : Visit Nat where
  block := Block.length <$> get
  transaction := Node.length <$> get
  input := Node.length <$> get
  output := Node.length <$> get

def ensureParsed : Visit Unit where
  block := Block.ensureParsed
  transaction := discard Node.fields
  input := discard Node.fields
  output := discard Node.fields

def bytes : Visit Bytes where
  block := Block.bytes
  transaction := Node.bytes
  input := Node.bytes
  output := Node.bytes

def invalidate : Visit Unit where
  block := Block.invalidate
  transaction := Node.invalidate
  input := Node.invalidate
  output := Node.invalidate

def serialize : Visit Bytes where
  block := Block.serialize
  transaction := Node.serialize
  input := Node.serialize
  output := Node.serialize

end Visit

/-! ## Answers -/

/-- Every field of an item. -/
inductive ItemReport where
  | block (report : BlockReport)
  | transaction (report : TxReport)
  | input (fields : TxIn)
  | output (fields : TxOut)

/-- What an operation answers. -/
inductive Answer where
  | done
  | flag (value : Bool)
  /-- A count, or the value of a field of 32 bits. -/
  | number (value : Nat)
  | amount (value : Int64)
  | hash (value : Hash)
  | bytes (value : Bytes)
  | outPoint (value : OutPoint)
  | header (value : Header)
  | report (value : ItemReport)
  | ownership (mine watched either : Bool)
  /-- The operation is not one for the kind of value it met. -/
  | misfit

namespace Visit

def report : Visit Answer where
  block := do return .report (.block (← Block.report))
  transaction := do return .report (.transaction (← Transaction.report))
  input := do return .report (.input (← Node.fields))
  output := do return .report (.output (← Node.fields))

/-- The fields that can be asked for, by name. -/
inductive Field where
  | version | prev | merkleRoot | time | bits | nonce | header | hash | transactionCount
  | signature | computedMerkleRoot | lockTime | inputCount | outputCount | coinbase
  | outputValue | outPoint | scriptSig | sequence | hasSequence | value | scriptPubkey
deriving DecidableEq

/-- The answer of a field that is a word. -/
def word (value : UInt32) : Answer :=
  .number value.toNat

def getBlock : Field → Access Block Answer
  | .version => do return word (← Block.headerFields).version
  | .prev => do return .hash (← Block.headerFields).prev
  | .merkleRoot => do return .hash (← Block.headerFields).merkleRoot
  | .time => do return word (← Block.headerFields).time
  | .bits => do return word (← Block.headerFields).bits
  | .nonce => do return word (← Block.headerFields).nonce
  | .header => do return .header (← Block.headerFields)
  | .hash => do return .hash (← Block.hash)
  | .transactionCount => do return .number (← Block.transactionCount)
  | .signature => do return .bytes (← Block.signature)
  | .computedMerkleRoot => do return .hash (← Block.computeMerkleRoot)
  | _ => return .misfit

def getTransaction : Field → Access Transaction Answer
  | .version => do return word (← Transaction.version)
  | .time => do return word (← Transaction.time)
  | .lockTime => do return word (← Transaction.lockTime)
  | .hash => do return .hash (← Node.hash)
  | .inputCount => do return .number (← Transaction.inputCount)
  | .outputCount => do return .number (← Transaction.outputCount)
  | .coinbase => do return .flag (← Transaction.isCoinbase)
  | .outputValue => do return .amount (← Transaction.outputValue)
  | _ => return .misfit

def getInput : Field → Access Input Answer
  | .outPoint => do return .outPoint (← Input.outPoint)
  | .scriptSig => do return .bytes (← Input.script)
  | .sequence => do return word (← Input.sequence)
  | .hasSequence => do return .flag (← Input.hasSequence)
  | .coinbase => do return .flag (← Input.isCoinbase)
  | _ => return .misfit

def getOutput : Field → Access Output Answer
  | .value => do return .amount (← Output.value)
  | .scriptPubkey => do return .bytes (← Output.script)
  | _ => return .misfit

def get (field : Field) : Visit Answer where
  block := getBlock field
  transaction := getTransaction field
  input := getInput field
  output := getOutput field

/-- A field and its new value. -/
inductive Assignment where
  | version (value : UInt32)
  | time (value : UInt32)
  | bits (value : UInt32)
  | nonce (value : UInt32)
  | prev (value : Hash)
  | merkleRoot (value : Hash)
  | signature (value : Bytes)
  | lockTime (value : UInt32)
  | outPoint (value : OutPoint)
  | scriptSig (value : Bytes)
  | sequence (value : UInt32)
  | value (value : Int64)
  | scriptPubkey (value : Bytes)

/-- Runs an operation that answers nothing. -/
def plainly {σ : Type} (access : Access σ Unit) : Access σ Answer := do
  access
  return .done

def set (assignment : Assignment) : Visit Answer where
  block := match assignment with
    | .version value => plainly (Block.setVersion value)
    | .time value => plainly (Block.setTime value)
    | .bits value => plainly (Block.setBits value)
    | .nonce value => plainly (Block.setNonce value)
    | .prev value => plainly (Block.setPrev value)
    | .merkleRoot value => plainly (Block.setMerkleRoot value)
    | .signature value => plainly (Block.setSignature value)
    | _ => return .misfit
  transaction := match assignment with
    | .version value => plainly (Transaction.setVersion value)
    | .time value => plainly (Transaction.setTime value)
    | .lockTime value => plainly (Transaction.setLockTime value)
    | _ => return .misfit
  input := match assignment with
    | .outPoint value => plainly (Input.setOutPoint value)
    | .scriptSig value => plainly (Input.setScript value)
    | .sequence value => plainly (Input.setSequence value)
    | _ => return .misfit
  output := match assignment with
    | .value value => plainly (Output.setValue value)
    | .scriptPubkey value => plainly (Output.setScript value)
    | _ => return .misfit

/-- Takes the header for an edit that changes no field. -/
def headerEdit : Visit Answer where
  block := do return .header (← Block.editHeader EStateM.get)
  transaction := return .misfit
  input := return .misfit
  output := return .misfit

/-- Appends a child. -/
def add (child : Item) : Visit Answer where
  block := match child with
    | .transaction transaction => plainly (Block.addTransaction transaction)
    | _ => return .misfit
  transaction := match child with
    | .input input => plainly (Transaction.addInput input)
    | .output output => plainly (Transaction.addOutput output)
    | _ => return .misfit
  input := return .misfit
  output := return .misfit

/-- Puts `item` in the place of the value that is found. -/
def put (item : Item) : Visit Answer where
  block := match item with
    | .block block => plainly (EStateM.set block)
    | _ => return .misfit
  transaction := match item with
    | .transaction transaction => plainly (EStateM.set transaction)
    | _ => return .misfit
  input := match item with
    | .input input => plainly (EStateM.set input)
    | _ => return .misfit
  output := match item with
    | .output output => plainly (EStateM.set output)
    | _ => return .misfit

/-- The lists of children. -/
inductive Children where
  | transactions
  | inputs
  | outputs
deriving DecidableEq

/-- Takes a child out of its list; nothing if the value has no such list. -/
def remove (children : Children) (index : Nat) : Visit (Option Item) where
  block := match children with
    | .transactions => do return some (.transaction (← Block.removeTransaction index))
    | _ => return none
  transaction := match children with
    | .inputs => do return some (.input (← Transaction.removeInput index))
    | .outputs => do return some (.output (← Transaction.removeOutput index))
    | _ => return none
  input := return none
  output := return none

def clear (children : Children) : Visit Answer where
  block := return .misfit
  transaction := match children with
    | .inputs => plainly Transaction.clearInputs
    | .outputs => plainly Transaction.clearOutputs
    | _ => return .misfit
  input := return .misfit
  output := return .misfit

/-- Compares two values of one kind, of which the first is the one at hand. -/
def comparing {σ : Type} (compare : σ → σ → Compared σ) (other : σ) : Access σ Answer := fun state ↦
  let compared := compare state other
  .ok (.flag compared.equal) compared.left

/-- Compares the value that is found with `item`. -/
def against (item : Item) : Visit Answer where
  block := match item with
    | .block block => comparing Block.compare block
    | _ => return .misfit
  transaction := match item with
    | .transaction transaction => comparing Node.compare transaction
    | _ => return .misfit
  input := match item with
    | .input input => comparing Node.compare input
    | _ => return .misfit
  output := match item with
    | .output output => comparing Node.compare output
    | _ => return .misfit

/-- Asks whose an output is. -/
def ownership (wallet : Script.Wallet) : Visit Answer where
  block := return .misfit
  transaction := return .misfit
  input := return .misfit
  output := do
    let mine ← Output.isMine wallet
    let watched ← Output.isWatched wallet
    let either ← Output.isMineOrWatched wallet
    return .ownership mine watched either

end Visit

/-! ## Sources -/

/-- Where a new value comes from. -/
inductive Source where
  | block (bytes : Bytes) (config : ParseConfig)
  | header (bytes : Bytes) (config : ParseConfig)
  /-- A block that starts after `offset` other bytes. -/
  | blockAt (bytes : Bytes) (offset : Nat) (config : ParseConfig)
  | transaction (bytes : Bytes) (config : ParseConfig)
  | input (bytes : Bytes) (config : ParseConfig)
  | output (bytes : Bytes) (config : ParseConfig)
  | newBlock (header : Header)
  | newTransaction (time : UInt32)
  | newInput (outPoint : OutPoint) (script : Bytes)
  | newCoinbase (script : Bytes)
  | newOutput (value : Int64) (script : Bytes)

def Source.make : Source → Except CodecError Item
  | .block bytes config => .block <$> Block.ofBytes bytes config
  | .header bytes config => .block <$> Block.ofHeaderBytes bytes config
  | .blockAt bytes offset config =>
    .block <$> (do Read.skip offset; Block.read config : Read Block).answer (Reader.ofBytes bytes)
  | .transaction bytes config => .transaction <$> Node.ofBytes bytes config
  | .input bytes config => .input <$> Node.ofBytes bytes config
  | .output bytes config => .output <$> Node.ofBytes bytes config
  | .newBlock fields => .ok (.block (Block.new fields))
  | .newTransaction time => .ok (.transaction (Transaction.new time))
  | .newInput outPoint script => .ok (.input (Input.new outPoint script))
  | .newCoinbase script => .ok (.input (Input.coinbase script))
  | .newOutput value script => .ok (.output (Output.new value script))

/-! ## Operations -/

inductive Operation where
  | make (slot : String) (source : Source)
  | copy (place : Place) (target : String)
  | copyHeader (place : Place) (target : String)
  | get (place : Place) (field : Visit.Field)
  | set (place : Place) (assignment : Visit.Assignment)
  | touch (place : Place)
  | headerEdit (place : Place)
  | report (place : Place)
  | length (place : Place)
  | ensureParsed (place : Place)
  | bytes (place : Place)
  /-- The encoding behind bytes that are there already. -/
  | bytesAfter (place : Place) (front : Bytes)
  | invalidate (place : Place)
  | serialize (place : Place)
  | add (place child : Place)
  | remove (place : Place) (children : Visit.Children) (index : Nat) (target : String)
  | clear (place : Place) (children : Visit.Children)
  | equal (left right : Place)
  /-- Puts a copy of `child` where a value of its kind is found. -/
  | assign (place child : Place)
  | ownership (place : Place) (wallet : Script.Wallet)

/-- Why an operation did nothing or not all of its work. -/
inductive Refusal where
  | codec (error : CodecError)
  | noSuchSlot
  | noSuchChild
deriving DecidableEq

/-- The values in the slots, by name. -/
structure Workbench (ι : Type) where
  slots : List (String × ι)

namespace Workbench

variable {ι α : Type}

def empty : Workbench ι := ⟨[]⟩

def get? (slot : String) (bench : Workbench ι) : Option ι :=
  bench.slots.lookup slot

def put (slot : String) (item : ι) (bench : Workbench ι) : Workbench ι :=
  ⟨(slot, item) :: bench.slots.filter (·.1 != slot)⟩

abbrev Work (ι α : Type) := EStateM Refusal (Workbench ι) α

/-- Works on the item in a slot. -/
def onSlot (slot : String) (access : Access ι α) : Work ι α := do
  match (← get).get? slot with
  | none => throw .noSuchSlot
  | some item =>
    match access item with
    | .ok a item' => do
      modify (put slot item')
      return a
    | .error e item' => do
      modify (put slot item')
      throw (.codec e)

theorem onSlot_apply (slot : String) (access : Access ι α) (bench : Workbench ι) :
    onSlot slot access bench =
      match bench.get? slot with
      | none => .error .noSuchSlot bench
      | some item =>
        match access item with
        | .ok a item' => .ok a (bench.put slot item')
        | .error e item' => .error (.codec e) (bench.put slot item') := by
  change (match bench.get? slot with | none => throw _ | some item => _ : Work ι α) bench = _
  cases bench.get? slot with
  | none => rfl
  | some item =>
    dsimp only
    cases access item <;> rfl

/-- Works on a part of the item in a slot, which must be there. -/
def onChild (slot : String) (access : Access ι (Option α)) : Work ι α := do
  match ← onSlot slot access with
  | some a => return a
  | none => throw .noSuchChild

def look (place : Place) (visit : Visit α) : Work Item α :=
  onChild place.slot (visit.look? place)

def reach (place : Place) (visit : Visit α) : Work Item α :=
  onSlot place.slot (visit.reach place)

def perform : Operation → Work Item Answer
  | .make slot source =>
    match source.make with
    | .ok item => do
      modify (put slot item)
      return .done
    | .error e => throw (.codec e)
  | .copy place target => do
    let item ← look place Visit.found
    modify (put target item)
    return .done
  | .copyHeader place target => do
    match ← look place Visit.found with
    | .block block => do
      modify (put target (.block block.headerOnly))
      return .done
    | _ => return .misfit
  | .get place field => look place (Visit.get field)
  | .set place assignment => reach place (Visit.set assignment)
  | .touch place => do
    discard (reach place Visit.found)
    return .done
  | .headerEdit place => reach place Visit.headerEdit
  | .report place => look place Visit.report
  | .length place => do return .number (← look place Visit.length)
  | .ensureParsed place => do
    look place Visit.ensureParsed
    return .done
  | .bytes place => do return .bytes (← look place Visit.bytes)
  | .bytesAfter place front => do return .bytes (front ++ (← look place Visit.bytes))
  | .invalidate place => do
    reach place Visit.invalidate
    return .done
  | .serialize place => do return .bytes (← reach place Visit.serialize)
  | .add place child => do
    let item ← look child Visit.found
    reach place (Visit.add item)
  | .remove place children index target => do
    match ← reach place (Visit.remove children index) with
    | some item => do
      modify (put target item)
      return .done
    | none => return .misfit
  | .clear place children => reach place (Visit.clear children)
  | .equal left right => do
    let a ← look left Visit.found
    let b ← look right Visit.found
    -- Either value is parsed where it is, so each is compared at its own place.
    let answer ← look left (Visit.against b)
    discard (look right (Visit.against a))
    return answer
  | .assign place child => do
    let item ← look child Visit.found
    reach place (Visit.put item)
  | .ownership place wallet => look place (Visit.ownership wallet)

/-- What `perform` answers to operations one after the other, and the workbench they leave. A
refusal stops nothing. -/
def run (perform : Operation → Work ι Answer) :
    List Operation → Workbench ι → List (Except Refusal Answer) × Workbench ι
  | [], bench => ([], bench)
  | operation :: operations, bench =>
    let (outcome, bench') : Except Refusal Answer × Workbench ι :=
      match perform operation bench with
      | .ok answer bench' => (.ok answer, bench')
      | .error refusal bench' => (.error refusal, bench')
    let (outcomes, left) := run perform operations bench'
    (outcome :: outcomes, left)

end Workbench

end CoinWire
