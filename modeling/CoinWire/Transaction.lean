import CoinWire.Input
import CoinWire.Output

/-!
# Transactions

A transaction is a version, a time, its inputs, its outputs and a lock time. Its inputs and
outputs are nodes of their own. A child is looked at through the transaction, which parses the
transaction and leaves its bytes alone, or edited through it, which drops the bytes of the
transaction and of no other child.
-/

namespace CoinWire

/-- A transaction without caches. -/
@[ext]
structure Tx where
  version : UInt32
  time : UInt32
  inputs : List TxIn
  outputs : List TxOut
  lockTime : UInt32
deriving DecidableEq

/-- The plain encoding. -/
def Tx.wire (tx : Tx) : Bytes :=
  Bytes.ofUInt32 tx.version ++ Bytes.ofUInt32 tx.time ++
    VarInt.ofLength tx.inputs ++ tx.inputs.flatMap TxIn.wire ++
    VarInt.ofLength tx.outputs ++ tx.outputs.flatMap TxOut.wire ++
    Bytes.ofUInt32 tx.lockTime

/-- The fields of a transaction node. -/
structure TxFields where
  version : UInt32
  time : UInt32
  inputs : List Input
  outputs : List Output
  lockTime : UInt32

namespace TxFields

/-- Size of the smallest transaction: version, time, two empty lists and a lock time. -/
def minSize : Nat := 14

variable {α : Type}

def onInputs (access : Access (List Input) α) : Access TxFields α :=
  Access.focus TxFields.inputs (fun inputs fields ↦ { fields with inputs }) access

def onOutputs (access : Access (List Output) α) : Access TxFields α :=
  Access.focus TxFields.outputs (fun outputs fields ↦ { fields with outputs }) access

/-- Compares the numbers and then the children, so that numbers that differ parse nothing. -/
def compare (left right : TxFields) : Compared TxFields :=
  if left.version = right.version ∧ left.time = right.time ∧ left.lockTime = right.lockTime then
    let inputs := Compared.lists Node.compare left.inputs right.inputs
    let left := { left with inputs := inputs.left }
    let right := { right with inputs := inputs.right }
    if inputs.equal then
      let outputs := Compared.lists Node.compare left.outputs right.outputs
      ⟨outputs.equal, { left with outputs := outputs.left },
        { right with outputs := outputs.right }⟩
    else ⟨false, left, right⟩
  else ⟨false, left, right⟩

instance : Layout TxFields where
  scan := do
    Read.skip 8
    discard (Read.counted TxIn.minSize "input" (Layout.scan TxIn))
    discard (Read.counted TxOut.minSize "output" (Layout.scan TxOut))
    Read.skip 4
  parse config := do
    let version ← Read.uint32
    let time ← Read.uint32
    let inputs ← Read.counted TxIn.minSize "input" (Node.read config)
    let outputs ← Read.counted TxOut.minSize "output" (Node.read config)
    let lockTime ← Read.uint32
    return ⟨version, time, inputs, outputs, lockTime⟩
  encodedLength fields :=
    8 + VarInt.lengthSize fields.inputs.length + Node.totalLength fields.inputs +
      VarInt.lengthSize fields.outputs.length + Node.totalLength fields.outputs + 4
  encode := do
    let inputs ← onInputs (Access.each Node.bytes)
    let outputs ← onOutputs (Access.each Node.bytes)
    let fields ← get
    return Bytes.ofUInt32 fields.version ++ Bytes.ofUInt32 fields.time ++
      VarInt.ofLength inputs ++ inputs.flatten ++
      VarInt.ofLength outputs ++ outputs.flatten ++
      Bytes.ofUInt32 fields.lockTime
  adopt raw fields :=
    let (inputs, rest) :=
      Node.adoptEach (raw.drop (8 + VarInt.lengthSize fields.inputs.length)) fields.inputs
    let (outputs, _) :=
      Node.adoptEach (rest.drop (VarInt.lengthSize fields.outputs.length)) fields.outputs
    { fields with inputs, outputs }
  compare := compare

end TxFields

abbrev Transaction := Node TxFields

namespace Transaction

variable {α : Type}

/-- Version of a transaction that was built. -/
def currentVersion : UInt32 := 1

/-- A transaction without inputs and outputs. -/
def new (time : UInt32) : Transaction :=
  Node.ofFields ⟨currentVersion, time, [], [], 0⟩ ParseConfig.eager

/-! ## Looking -/

def version : Access Transaction UInt32 := do
  return (← Node.fields).version

def time : Access Transaction UInt32 := do
  return (← Node.fields).time

def lockTime : Access Transaction UInt32 := do
  return (← Node.fields).lockTime

def inputCount : Access Transaction Nat := do
  return (← Node.fields).inputs.length

def outputCount : Access Transaction Nat := do
  return (← Node.fields).outputs.length

/-- Looks at one input, if there is one at `index`. -/
def lookInput? (index : Nat) (access : Access Input α) : Access Transaction (Option α) :=
  Node.look (TxFields.onInputs (Access.at? index access))

/-- Looks at one output, if there is one at `index`. -/
def lookOutput? (index : Nat) (access : Access Output α) : Access Transaction (Option α) :=
  Node.look (TxFields.onOutputs (Access.at? index access))

/-- The transaction creates coins: its only input spends nothing. -/
def isCoinbase : Access Transaction Bool := do
  if (← inputCount) = 1 then
    let answers ← Node.look (TxFields.onInputs (Access.each Input.isCoinbase))
    return answers.all id
  else return false

/-- A sum that stays at the bound it would pass. -/
def saturatingAdd (a b : Int64) : Int64 :=
  let sum := a.toInt + b.toInt
  if sum < Int64.minValue.toInt then Int64.minValue
  else if Int64.maxValue.toInt < sum then Int64.maxValue
  else Int64.ofInt sum

/-- Sum of the output values, one after the other. -/
def outputValue : Access Transaction Int64 := do
  let values ← Node.look (TxFields.onOutputs (Access.each Output.value))
  return values.foldl saturatingAdd 0

/-- Every field of the transaction and of its children. -/
def contents : Access Transaction Tx := Node.look do
  let inputs ← TxFields.onInputs (Access.each Node.fields)
  let outputs ← TxFields.onOutputs (Access.each Node.fields)
  let fields ← get
  return ⟨fields.version, fields.time, inputs, outputs, fields.lockTime⟩

/-! ## Editing -/

def setVersion (version : UInt32) : Access Transaction Unit :=
  Node.edit (modify fun (fields : TxFields) ↦ { fields with version })

def setTime (time : UInt32) : Access Transaction Unit :=
  Node.edit (modify fun (fields : TxFields) ↦ { fields with time })

def setLockTime (lockTime : UInt32) : Access Transaction Unit :=
  Node.edit (modify fun (fields : TxFields) ↦ { fields with lockTime })

def editInput (index : Nat) (access : Access Input α) : Access Transaction α :=
  Node.edit (TxFields.onInputs (Access.atIndex index access))

def editOutput (index : Nat) (access : Access Output α) : Access Transaction α :=
  Node.edit (TxFields.onOutputs (Access.atIndex index access))

/-- Appends an input, which keeps the bytes it holds. -/
def addInput (input : Input) : Access Transaction Unit :=
  Node.edit (TxFields.onInputs (Access.append input))

def addOutput (output : Output) : Access Transaction Unit :=
  Node.edit (TxFields.onOutputs (Access.append output))

def removeInput (index : Nat) : Access Transaction Input :=
  Node.edit (TxFields.onInputs (Access.detach index))

def removeOutput (index : Nat) : Access Transaction Output :=
  Node.edit (TxFields.onOutputs (Access.detach index))

def clearInputs : Access Transaction Unit :=
  Node.edit (TxFields.onInputs (set ([] : List Input)))

def clearOutputs : Access Transaction Unit :=
  Node.edit (TxFields.onOutputs (set ([] : List Output)))

end Transaction

end CoinWire
