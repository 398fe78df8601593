import CoinWire.Node

/-!
# Transaction inputs

An input names the output it spends, holds the script that unlocks it, and has a sequence
number. Outputs are named by the hash of their transaction and their place in it.
-/

namespace CoinWire

/-- Reference to an output of an earlier transaction. -/
structure OutPoint where
  txid : Hash
  index : UInt32
deriving DecidableEq

namespace OutPoint

/-- Number of bytes on the wire. -/
def size : Nat := 36

/-- The outpoint of an input that spends nothing. -/
def null : OutPoint :=
  ⟨Hash.zero, 0xFFFFFFFF⟩

def isNull (outPoint : OutPoint) : Bool :=
  outPoint.txid.isZero && outPoint.index == 0xFFFFFFFF

def wire (outPoint : OutPoint) : Bytes :=
  outPoint.txid.toBytes ++ Bytes.ofUInt32 outPoint.index

def read : Read OutPoint := do
  let txid ← Read.take 32
  let index ← Read.uint32
  return ⟨txid, index⟩

@[simp]
theorem length_wire (outPoint : OutPoint) : outPoint.wire.length = size := by
  simp [wire, size, outPoint.txid.length_toBytes]

end OutPoint

/-- The fields of an input. -/
structure TxIn where
  outPoint : OutPoint
  script : Bytes
  sequence : UInt32
deriving DecidableEq

namespace TxIn

/-- The sequence number of an input that is final. -/
def finalSequence : UInt32 := 0xFFFFFFFF

/-- Size of the smallest input: an outpoint, an empty script and a sequence number. -/
def minSize : Nat := 41

def wire (input : TxIn) : Bytes :=
  input.outPoint.wire ++ input.script.counted ++ Bytes.ofUInt32 input.sequence

instance : Layout TxIn where
  scan := do
    Read.skip OutPoint.size
    Read.skipCounted
    Read.skip 4
  parse _ := do
    let outPoint ← OutPoint.read
    let script ← Read.countedBytes
    let sequence ← Read.uint32
    return ⟨outPoint, script, sequence⟩
  encodedLength input := OutPoint.size + Bytes.countedSize input.script.length + 4
  encode := do return (← get).wire
  adopt _ input := input
  compare := Compared.plain

end TxIn

abbrev Input := Node TxIn

namespace Input

/-- An input that is final. -/
def new (outPoint : OutPoint) (script : Bytes) : Input :=
  Node.ofFields ⟨outPoint, script, TxIn.finalSequence⟩ ParseConfig.eager

/-- The only input of a transaction that creates coins. -/
def coinbase (script : Bytes) : Input :=
  new OutPoint.null script

def outPoint : Access Input OutPoint := do
  return (← Node.fields).outPoint

def script : Access Input Bytes := do
  return (← Node.fields).script

def sequence : Access Input UInt32 := do
  return (← Node.fields).sequence

/-- The sequence number is not the final one. -/
def hasSequence : Access Input Bool := do
  return (← sequence) != TxIn.finalSequence

/-- The input spends nothing. -/
def isCoinbase : Access Input Bool := do
  return (← outPoint).isNull

def setOutPoint (outPoint : OutPoint) : Access Input Unit :=
  Node.edit (modify fun (input : TxIn) ↦ { input with outPoint })

def setScript (script : Bytes) : Access Input Unit :=
  Node.edit (modify fun (input : TxIn) ↦ { input with script })

def setSequence (sequence : UInt32) : Access Input Unit :=
  Node.edit (modify fun (input : TxIn) ↦ { input with sequence })

end Input

end CoinWire
