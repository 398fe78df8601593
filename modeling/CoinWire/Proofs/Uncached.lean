import Mathlib
import CoinWire.Report
import CoinWire.Proofs.Change

/-!
# Values without caches

The same questions and changes for values that are their fields and nothing else. Every encoding is
made anew from the fields, every hash from a new encoding, and two values are equal when their
fields are.
-/

namespace CoinWire

variable {α β : Type}

namespace Tx

def hash (tx : Tx) : Hash :=
  Hash.double tx.wire

/-- The only input spends nothing. -/
def isCoinbase (tx : Tx) : Bool :=
  match tx.inputs with
  | [input] => input.outPoint.isNull
  | _ => false

/-- Sum of the output values, one after the other. -/
def outputValue (tx : Tx) : Int64 :=
  (tx.outputs.map TxOut.value).foldl Transaction.saturatingAdd 0

def report (tx : Tx) : TxReport :=
  ⟨tx, tx.hash, tx.isCoinbase, tx.outputValue⟩

def onInputs (change : Change (List TxIn) β) : Change Tx β :=
  change.onPart Tx.inputs fun inputs tx ↦ { tx with inputs }

def onOutputs (change : Change (List TxOut) β) : Change Tx β :=
  change.onPart Tx.outputs fun outputs tx ↦ { tx with outputs }

end Tx

namespace Body

def onTransactions (change : Change (List Tx) β) : Change Body β :=
  change.onPart Body.transactions fun transactions body ↦ { body with transactions }

end Body

namespace PlainBlock

def hash (block : PlainBlock) : Hash :=
  Hash.double block.header.wire

/-- Asks the body, which must be there. -/
def askBody (question : Question Body β) : Question PlainBlock β := fun block ↦
  match block.body with
  | none => .error .headerOnly
  | some body => question body

/-- Asks the body, if there is one. -/
def askBody? (question : Question Body β) : Question PlainBlock (Option β) := fun block ↦
  match block.body with
  | none => .ok none
  | some body => some <$> question body

def computeMerkleRoot : Question PlainBlock Hash :=
  askBody fun body ↦ .ok (Hash.merkleRoot (body.transactions.map Tx.hash))

def report (block : PlainBlock) : BlockReport where
  header := block.header
  hash := block.hash
  body := block.body.map fun body ↦ (body.transactions.map Tx.report, body.signature)

def onHeader (change : Change Header β) : Change PlainBlock β :=
  change.onPart PlainBlock.header fun header block ↦ { block with header }

/-- Changes the body, which must be there. -/
def onBody (change : Change Body β) : Change PlainBlock β := fun block ↦
  match block.body with
  | none => .error .headerOnly
  | some body => (change body).map fun found ↦ (found.1, { block with body := some found.2 })

/-- Appends a transaction. A block without a body gets one. -/
def addTransaction (tx : Tx) : Change PlainBlock Unit :=
  Change.modify fun block ↦
    let body := block.body.getD ⟨[], []⟩
    { block with body := some { body with transactions := body.transactions ++ [tx] } }

end PlainBlock

end CoinWire
