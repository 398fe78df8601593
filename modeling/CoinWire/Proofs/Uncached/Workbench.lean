import Mathlib
import CoinWire.Proofs.Grammar
import CoinWire.Proofs.Uncached
import CoinWire.Workbench

/-!
# The workbench without caches

The operations of the workbench on plain values. Nothing is parsed late, so where a value comes from
leaves no trace in it: the configuration it was read under is not even kept.
-/

namespace CoinWire

/-- A value in a slot, without caches. -/
inductive PlainItem where
  | block (block : PlainBlock)
  | transaction (tx : Tx)
  | input (input : TxIn)
  | output (output : TxOut)

/-- What is asked at the end of a way, for each kind of value that may be found there. -/
structure Inquiry (β : Type) where
  block : Question PlainBlock β
  transaction : Question Tx β
  input : Question TxIn β
  output : Question TxOut β

/-- What is changed at the end of a way. -/
structure Alteration (β : Type) where
  block : Change PlainBlock β
  transaction : Change Tx β
  input : Change TxIn β
  output : Change TxOut β

variable {α β γ : Type}

namespace Inquiry

def lookTransaction? (place : Place) (inquiry : Inquiry β) : Question Tx (Option β) :=
  match place.input, place.output with
  | some index, _ => fun tx ↦ Question.at? index inquiry.input tx.inputs
  | none, some index => fun tx ↦ Question.at? index inquiry.output tx.outputs
  | none, none => fun tx ↦ some <$> inquiry.transaction tx

def lookBlock? (place : Place) (inquiry : Inquiry β) : Question PlainBlock (Option β) :=
  match place.transaction with
  | some index => fun block ↦ do
    let found ← PlainBlock.askBody
      (fun body ↦ Question.at? index (inquiry.lookTransaction? place) body.transactions) block
    return found.join
  | none => fun block ↦ some <$> inquiry.block block

/-- Asks at a place in an item; nothing if there is no such place. -/
def look? (place : Place) (inquiry : Inquiry β) : Question PlainItem (Option β)
  | .block block => inquiry.lookBlock? place block
  | .transaction tx => inquiry.lookTransaction? place tx
  | .input input => some <$> inquiry.input input
  | .output output => some <$> inquiry.output output

/-- The same answer for every value. -/
def always (answer : β) : Inquiry β where
  block _ := .ok answer
  transaction _ := .ok answer
  input _ := .ok answer
  output _ := .ok answer

def found : Inquiry PlainItem where
  block v := .ok (.block v)
  transaction v := .ok (.transaction v)
  input v := .ok (.input v)
  output v := .ok (.output v)

/-- The encoding. -/
def bytes : Inquiry Bytes where
  block v := .ok v.wire
  transaction v := .ok v.wire
  input v := .ok v.wire
  output v := .ok v.wire

def length : Inquiry Nat where
  block v := .ok v.wire.length
  transaction v := .ok v.wire.length
  input v := .ok v.wire.length
  output v := .ok v.wire.length

def report : Inquiry Answer where
  block v := .ok (.report (.block v.report))
  transaction v := .ok (.report (.transaction v.report))
  input v := .ok (.report (.input v))
  output v := .ok (.report (.output v))

open Visit (Field word)

def getBlock : Field → Question PlainBlock Answer
  | .version => fun v ↦ .ok (word v.header.version)
  | .prev => fun v ↦ .ok (.hash v.header.prev)
  | .merkleRoot => fun v ↦ .ok (.hash v.header.merkleRoot)
  | .time => fun v ↦ .ok (word v.header.time)
  | .bits => fun v ↦ .ok (word v.header.bits)
  | .nonce => fun v ↦ .ok (word v.header.nonce)
  | .header => fun v ↦ .ok (.header v.header)
  | .hash => fun v ↦ .ok (.hash v.hash)
  | .transactionCount => PlainBlock.askBody fun body ↦ .ok (.number body.transactions.length)
  | .signature => PlainBlock.askBody fun body ↦ .ok (.bytes body.signature)
  | .computedMerkleRoot => fun v ↦ do return .hash (← v.computeMerkleRoot)
  | _ => fun _ ↦ .ok .misfit

def getTransaction : Field → Question Tx Answer
  | .version => fun v ↦ .ok (word v.version)
  | .time => fun v ↦ .ok (word v.time)
  | .lockTime => fun v ↦ .ok (word v.lockTime)
  | .hash => fun v ↦ .ok (.hash v.hash)
  | .inputCount => fun v ↦ .ok (.number v.inputs.length)
  | .outputCount => fun v ↦ .ok (.number v.outputs.length)
  | .coinbase => fun v ↦ .ok (.flag v.isCoinbase)
  | .outputValue => fun v ↦ .ok (.amount v.outputValue)
  | _ => fun _ ↦ .ok .misfit

def getInput : Field → Question TxIn Answer
  | .outPoint => fun v ↦ .ok (.outPoint v.outPoint)
  | .scriptSig => fun v ↦ .ok (.bytes v.script)
  | .sequence => fun v ↦ .ok (word v.sequence)
  | .hasSequence => fun v ↦ .ok (.flag (v.sequence != TxIn.finalSequence))
  | .coinbase => fun v ↦ .ok (.flag v.outPoint.isNull)
  | _ => fun _ ↦ .ok .misfit

def getOutput : Field → Question TxOut Answer
  | .value => fun v ↦ .ok (.amount v.value)
  | .scriptPubkey => fun v ↦ .ok (.bytes v.script)
  | _ => fun _ ↦ .ok .misfit

def get (field : Field) : Inquiry Answer where
  block := getBlock field
  transaction := getTransaction field
  input := getInput field
  output := getOutput field

/-- Values of one kind are equal when their fields are. -/
def against (item : PlainItem) : Inquiry Answer where
  block v := match item with
    | .block w => .ok (.flag (decide (v = w)))
    | _ => .ok .misfit
  transaction v := match item with
    | .transaction w => .ok (.flag (decide (v = w)))
    | _ => .ok .misfit
  input v := match item with
    | .input w => .ok (.flag (decide (v = w)))
    | _ => .ok .misfit
  output v := match item with
    | .output w => .ok (.flag (decide (v = w)))
    | _ => .ok .misfit

def ownership (wallet : Script.Wallet) : Inquiry Answer where
  block _ := .ok .misfit
  transaction _ := .ok .misfit
  input _ := .ok .misfit
  output v :=
    let mine := wallet.owns v.script
    let watched := wallet.watches v.script
    .ok (.ownership mine watched (mine || watched))

end Inquiry

namespace Alteration

/-- A question, which alters nothing. -/
def ask (inquiry : Inquiry β) : Alteration β where
  block := Change.ask inquiry.block
  transaction := Change.ask inquiry.transaction
  input := Change.ask inquiry.input
  output := Change.ask inquiry.output

def reachTransaction (place : Place) (alteration : Alteration β) : Change Tx β :=
  match place.input, place.output with
  | some index, _ => Tx.onInputs (Change.onIndex index alteration.input)
  | none, some index => Tx.onOutputs (Change.onIndex index alteration.output)
  | none, none => alteration.transaction

def reachBlock (place : Place) (alteration : Alteration β) : Change PlainBlock β :=
  match place.transaction with
  | some index => PlainBlock.onBody (Body.onTransactions
      (Change.onIndex index (alteration.reachTransaction place)))
  | none => alteration.block

/-- Alters what is found at a place in an item. -/
def reach (place : Place) (alteration : Alteration β) : Change PlainItem β
  | .block block => (alteration.reachBlock place block).map fun found ↦
      (found.1, .block found.2)
  | .transaction tx => (alteration.reachTransaction place tx).map fun found ↦
      (found.1, .transaction found.2)
  | .input input => (alteration.input input).map fun found ↦ (found.1, .input found.2)
  | .output output => (alteration.output output).map fun found ↦ (found.1, .output found.2)

/-- Nothing is altered, for the operation is not one for the kind of value. -/
def misfit : Change γ Answer := fun v ↦ .ok (.misfit, v)

/-- A change that answers nothing. -/
def plainly (change : Change γ Unit) : Change γ Answer :=
  change.map fun _ ↦ .done

open Visit (Assignment Children)

def set (assignment : Assignment) : Alteration Answer where
  block := match assignment with
    | .version version => plainly (PlainBlock.onHeader (.modify ({ · with version })))
    | .time time => plainly (PlainBlock.onHeader (.modify ({ · with time })))
    | .bits bits => plainly (PlainBlock.onHeader (.modify ({ · with bits })))
    | .nonce nonce => plainly (PlainBlock.onHeader (.modify ({ · with nonce })))
    | .prev prev => plainly (PlainBlock.onHeader (.modify ({ · with prev })))
    | .merkleRoot merkleRoot => plainly (PlainBlock.onHeader (.modify ({ · with merkleRoot })))
    | .signature signature => plainly (PlainBlock.onBody (.modify ({ · with signature })))
    | _ => misfit
  transaction := match assignment with
    | .version version => plainly (.modify ({ · with version }))
    | .time time => plainly (.modify ({ · with time }))
    | .lockTime lockTime => plainly (.modify ({ · with lockTime }))
    | _ => misfit
  input := match assignment with
    | .outPoint outPoint => plainly (.modify ({ · with outPoint }))
    | .scriptSig script => plainly (.modify ({ · with script }))
    | .sequence sequence => plainly (.modify ({ · with sequence }))
    | _ => misfit
  output := match assignment with
    | .value value => plainly (.modify ({ · with value }))
    | .scriptPubkey script => plainly (.modify ({ · with script }))
    | _ => misfit

def headerEdit : Alteration Answer where
  block := Change.ask fun v ↦ .ok (.header v.header)
  transaction := misfit
  input := misfit
  output := misfit

def put (item : PlainItem) : Alteration Answer where
  block := match item with
    | .block v => plainly (.modify fun _ ↦ v)
    | _ => misfit
  transaction := match item with
    | .transaction v => plainly (.modify fun _ ↦ v)
    | _ => misfit
  input := match item with
    | .input v => plainly (.modify fun _ ↦ v)
    | _ => misfit
  output := match item with
    | .output v => plainly (.modify fun _ ↦ v)
    | _ => misfit

def add (child : PlainItem) : Alteration Answer where
  block := match child with
    | .transaction tx => plainly (PlainBlock.addTransaction tx)
    | _ => misfit
  transaction := match child with
    | .input input => plainly (Tx.onInputs (.modify (· ++ [input])))
    | .output output => plainly (Tx.onOutputs (.modify (· ++ [output])))
    | _ => misfit
  input := misfit
  output := misfit

def remove (children : Children) (index : Nat) : Alteration (Option PlainItem) where
  block := match children with
    | .transactions => (PlainBlock.onBody (Body.onTransactions (Change.detach index))).map
        (some ∘ .transaction)
    | _ => Change.ask fun _ ↦ .ok none
  transaction := match children with
    | .inputs => (Tx.onInputs (Change.detach index)).map (some ∘ .input)
    | .outputs => (Tx.onOutputs (Change.detach index)).map (some ∘ .output)
    | _ => Change.ask fun _ ↦ .ok none
  input := Change.ask fun _ ↦ .ok none
  output := Change.ask fun _ ↦ .ok none

def clear (children : Children) : Alteration Answer where
  block := misfit
  transaction := match children with
    | .inputs => plainly (Tx.onInputs (.modify fun _ ↦ []))
    | .outputs => plainly (Tx.onOutputs (.modify fun _ ↦ []))
    | _ => misfit
  input := misfit
  output := misfit

end Alteration

/-! ## Sources -/

/-- Reads the value in full, whatever the configuration says. -/
def Source.makePlain : Source → Except CodecError PlainItem
  | .block bytes _ => .block <$> PlainBlock.read.answer (Reader.ofBytes bytes)
  | .header bytes _ => do
    let fields ← Header.read.answer (Reader.ofBytes bytes)
    return .block ⟨fields, none⟩
  | .blockAt bytes offset _ =>
    .block <$>
      (do Read.skip offset; PlainBlock.read : Read PlainBlock).answer (Reader.ofBytes bytes)
  | .transaction bytes _ => .transaction <$> Tx.read.answer (Reader.ofBytes bytes)
  | .input bytes _ => .input <$> TxIn.read.answer (Reader.ofBytes bytes)
  | .output bytes _ => .output <$> TxOut.read.answer (Reader.ofBytes bytes)
  | .newBlock fields => .ok (.block ⟨fields, none⟩)
  | .newTransaction time => .ok (.transaction ⟨Transaction.currentVersion, time, [], [], 0⟩)
  | .newInput outPoint script => .ok (.input ⟨outPoint, script, TxIn.finalSequence⟩)
  | .newCoinbase script => .ok (.input ⟨OutPoint.null, script, TxIn.finalSequence⟩)
  | .newOutput value script => .ok (.output ⟨value, script⟩)

/-! ## Operations -/

namespace Uncached

open Workbench

/-- A question as an access to the value it is put to. -/
def asking (question : Question γ β) : Access γ β := fun v ↦
  match question v with
  | .ok b => .ok b v
  | .error e => .error e.error v

/-- A change as an access to the value it changes. -/
def changing (change : Change γ β) : Access γ β := fun v ↦
  match change v with
  | .ok (b, v') => .ok b v'
  | .error e => .error e.error v

def look (place : Place) (inquiry : Inquiry β) : Work PlainItem β :=
  onChild place.slot (asking (inquiry.look? place))

def reach (place : Place) (alteration : Alteration β) : Work PlainItem β :=
  onSlot place.slot (changing (alteration.reach place))

def perform : Operation → Work PlainItem Answer
  | .make slot source =>
    match source.makePlain with
    | .ok item => do
      modify (put slot item)
      return .done
    | .error e => throw (.codec e)
  | .copy place target => do
    let item ← look place Inquiry.found
    modify (put target item)
    return .done
  | .copyHeader place target => do
    match ← look place Inquiry.found with
    | .block block => do
      modify (put target (.block ⟨block.header, none⟩))
      return .done
    | _ => return .misfit
  | .get place field => look place (Inquiry.get field)
  | .set place assignment => reach place (Alteration.set assignment)
  | .touch place => do
    discard (reach place (Alteration.ask Inquiry.found))
    return .done
  | .headerEdit place => reach place Alteration.headerEdit
  | .report place => look place Inquiry.report
  | .length place => do return .number (← look place Inquiry.length)
  | .ensureParsed place => do
    look place (Inquiry.always ())
    return .done
  | .bytes place => do return .bytes (← look place Inquiry.bytes)
  | .bytesAfter place front => do return .bytes (front ++ (← look place Inquiry.bytes))
  | .invalidate place => do
    reach place (Alteration.ask (Inquiry.always ()))
    return .done
  | .serialize place => do return .bytes (← reach place (Alteration.ask Inquiry.bytes))
  | .add place child => do
    let item ← look child Inquiry.found
    reach place (Alteration.add item)
  | .remove place children index target => do
    match ← reach place (Alteration.remove children index) with
    | some item => do
      modify (put target item)
      return .done
    | none => return .misfit
  | .clear place children => reach place (Alteration.clear children)
  | .equal left right => do
    let a ← look left Inquiry.found
    let b ← look right Inquiry.found
    let answer ← look left (Inquiry.against b)
    discard (look right (Inquiry.against a))
    return answer
  | .assign place child => do
    let item ← look child Inquiry.found
    reach place (Alteration.put item)
  | .ownership place wallet => look place (Inquiry.ownership wallet)

end Uncached

end CoinWire
