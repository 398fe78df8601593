import Mathlib
import CoinWire.Block
import CoinWire.Proofs.Reading

/-!
# The wire grammar

Values without caches, the sizes their encoding allows, and a read of each kind that makes no
nodes. Such a read accepts exactly the encodings of the values that fit, so an encoding is
unambiguous and what follows it has no influence on the value.
-/

namespace CoinWire

open Read

/-- Values that stand for themselves: nothing is held beside their fields. -/
class Plain (V : Type) where
  wire : V → Bytes
  /-- Every list in the value is short enough to be counted. -/
  Fits : V → Prop
  read : Read V
  accepts_read : Accepts read id Fits wire
  /-- No value is encoded as nothing. -/
  wire_pos : ∀ v, 0 < (wire v).length

/-! ## Inputs and outputs -/

/-- The reader of outpoints accepts their encodings and nothing else. -/
theorem OutPoint.accepts_read : Accepts OutPoint.read id (fun _ ↦ True) OutPoint.wire := by
  have h := (accepts_take 32).bind fun txid ↦ accepts_uint32.bind fun index ↦
    Accepts.pure (OutPoint.mk txid index)
  apply h.reindex fun outPoint ↦ (outPoint.txid, outPoint.index, ())
  · intro outPoint
    rfl
  · intro outPoint
    simp
  · intro outPoint _
    simp [OutPoint.wire]
  · rintro ⟨txid, index, _⟩ _
    exact ⟨⟨txid, index⟩, rfl⟩

namespace TxIn

/-- The script is short enough for its length to be written. -/
def Fits (input : TxIn) : Prop :=
  Countable input.script

protected def read : Read TxIn := do
  let outPoint ← OutPoint.read
  let script ← Read.countedBytes
  let sequence ← Read.uint32
  return ⟨outPoint, script, sequence⟩

/-- The reader of inputs accepts the encodings of inputs that fit and nothing else. -/
theorem accepts_read : Accepts TxIn.read id Fits wire := by
  have h := OutPoint.accepts_read.bind fun outPoint ↦ accepts_countedBytes.bind fun script ↦
    accepts_uint32.bind fun sequence ↦ Accepts.pure (TxIn.mk outPoint script sequence)
  apply h.reindex fun input ↦ (input.outPoint, input.script, input.sequence, ())
  · intro input
    rfl
  · intro input
    simp [Fits]
  · intro input _
    simp [wire]
  · rintro ⟨outPoint, script, sequence, _⟩ _
    exact ⟨⟨outPoint, script, sequence⟩, rfl⟩

theorem minSize_le_length_wire (input : TxIn) : minSize ≤ input.wire.length := by
  have hsize := VarInt.size_pos (UInt64.ofNat input.script.length)
  simp only [wire, List.length_append, OutPoint.length_wire, Bytes.length_counted,
    Bytes.length_ofUInt32, Bytes.countedSize, VarInt.lengthSize, OutPoint.size, minSize]
  omega

instance : Plain TxIn :=
  ⟨wire, Fits, TxIn.read, accepts_read, fun input ↦
    lt_of_lt_of_le (by decide) (minSize_le_length_wire input)⟩

end TxIn

namespace TxOut

def Fits (output : TxOut) : Prop :=
  Countable output.script

protected def read : Read TxOut := do
  let value ← Read.int64
  let script ← Read.countedBytes
  return ⟨value, script⟩

/-- The reader of outputs accepts the encodings of outputs that fit and nothing else. -/
theorem accepts_read : Accepts TxOut.read id Fits wire := by
  have h := accepts_int64.bind fun value ↦ accepts_countedBytes.bind fun script ↦
    Accepts.pure (TxOut.mk value script)
  apply h.reindex fun output ↦ (output.value, output.script, ())
  · intro output
    rfl
  · intro output
    simp [Fits]
  · intro output _
    simp [wire]
  · rintro ⟨value, script, _⟩ _
    exact ⟨⟨value, script⟩, rfl⟩

theorem minSize_le_length_wire (output : TxOut) : minSize ≤ output.wire.length := by
  have hsize := VarInt.size_pos (UInt64.ofNat output.script.length)
  simp only [wire, List.length_append, Bytes.length_ofInt64, Bytes.length_counted,
    Bytes.countedSize, VarInt.lengthSize, minSize]
  omega

instance : Plain TxOut :=
  ⟨wire, Fits, TxOut.read, accepts_read, fun output ↦
    lt_of_lt_of_le (by decide) (minSize_le_length_wire output)⟩

end TxOut

/-! ## Transactions -/

namespace Tx

/-- The lists are short enough for their lengths to be written, and what is in them fits. -/
structure Fits (tx : Tx) : Prop where
  inputs : Countable tx.inputs
  eachInput : ∀ input ∈ tx.inputs, input.Fits
  outputs : Countable tx.outputs
  eachOutput : ∀ output ∈ tx.outputs, output.Fits

protected def read : Read Tx := do
  let version ← Read.uint32
  let time ← Read.uint32
  let inputs ← Read.counted TxIn.minSize "input" TxIn.read
  let outputs ← Read.counted TxOut.minSize "output" TxOut.read
  let lockTime ← Read.uint32
  return ⟨version, time, inputs, outputs, lockTime⟩

/-- The reader of transactions accepts the encodings of transactions that fit and nothing else. -/
theorem accepts_read : Accepts Tx.read id Fits wire := by
  have hinputs := accepts_counted TxIn.accepts_read "input" fun input _ ↦
    max_le (TxIn.minSize_le_length_wire input)
      (le_trans (by decide) (TxIn.minSize_le_length_wire input))
  have houtputs := accepts_counted TxOut.accepts_read "output" fun output _ ↦
    max_le (TxOut.minSize_le_length_wire output)
      (le_trans (by decide) (TxOut.minSize_le_length_wire output))
  have h := accepts_uint32.bind fun version ↦ accepts_uint32.bind fun time ↦
    hinputs.bind fun inputs ↦ houtputs.bind fun outputs ↦ accepts_uint32.bind fun lockTime ↦
    Accepts.pure (Tx.mk version time inputs outputs lockTime)
  apply h.reindex fun tx ↦ (tx.version, tx.time, tx.inputs, tx.outputs, tx.lockTime, ())
  · intro tx
    rfl
  · intro tx
    constructor
    · rintro ⟨-, -, ⟨hinputs, heach⟩, ⟨houtputs, heach'⟩, -⟩
      exact ⟨hinputs, heach, houtputs, heach'⟩
    · rintro ⟨hinputs, heach, houtputs, heach'⟩
      exact ⟨trivial, trivial, ⟨hinputs, heach⟩, ⟨houtputs, heach'⟩, trivial, trivial⟩
  · intro tx _
    simp [wire]
  · rintro ⟨version, time, inputs, outputs, lockTime, _⟩ _
    exact ⟨⟨version, time, inputs, outputs, lockTime⟩, rfl⟩

/-- No transaction is shorter than one without inputs and outputs. -/
theorem minSize_le_length_wire (tx : Tx) : TxFields.minSize ≤ tx.wire.length := by
  have hinputs := VarInt.size_pos (UInt64.ofNat tx.inputs.length)
  have houtputs := VarInt.size_pos (UInt64.ofNat tx.outputs.length)
  simp only [wire, List.length_append, Bytes.length_ofUInt32, VarInt.ofLength,
    VarInt.length_encode, TxFields.minSize]
  omega

instance : Plain Tx :=
  ⟨wire, Fits, Tx.read, accepts_read, fun tx ↦
    lt_of_lt_of_le (by decide) (minSize_le_length_wire tx)⟩

end Tx

/-! ## Blocks -/

namespace Header

def Fits (_ : Header) : Prop :=
  True

protected def read : Read Header := do
  let version ← Read.uint32
  let prev ← Read.take 32
  let merkleRoot ← Read.take 32
  let time ← Read.uint32
  let bits ← Read.uint32
  let nonce ← Read.uint32
  return ⟨version, prev, merkleRoot, time, bits, nonce⟩

/-- The reader of headers accepts their encodings and nothing else. -/
theorem accepts_read : Accepts Header.read id Fits wire := by
  have h := accepts_uint32.bind fun version ↦ (accepts_take 32).bind fun prev ↦
    (accepts_take 32).bind fun merkleRoot ↦ accepts_uint32.bind fun time ↦
    accepts_uint32.bind fun bits ↦ accepts_uint32.bind fun nonce ↦
    Accepts.pure (Header.mk version prev merkleRoot time bits nonce)
  apply h.reindex fun header ↦ (header.version, header.prev, header.merkleRoot, header.time,
    header.bits, header.nonce, ())
  · intro header
    rfl
  · intro header
    simp [Fits]
  · intro header _
    simp [wire]
  · rintro ⟨version, prev, merkleRoot, time, bits, nonce, _⟩ _
    exact ⟨⟨version, prev, merkleRoot, time, bits, nonce⟩, rfl⟩

instance : Plain Header :=
  ⟨wire, Fits, Header.read, accepts_read, fun header ↦ by rw [length_wire]; decide⟩

end Header

namespace Body

/-- The transactions and the signature are short enough for their lengths to be written. -/
structure Fits (body : Body) : Prop where
  transactions : Countable body.transactions
  eachTransaction : ∀ tx ∈ body.transactions, tx.Fits
  signature : Countable body.signature

protected def read : Read Body := do
  let transactions ← Read.counted TxFields.minSize "transaction" Tx.read
  let signature ← Read.countedBytes
  return ⟨transactions, signature⟩

/-- The reader of bodies accepts the encodings of bodies that fit and nothing else. -/
theorem accepts_read : Accepts Body.read id Fits wire := by
  have htransactions := accepts_counted Tx.accepts_read "transaction" fun tx _ ↦
    max_le (Tx.minSize_le_length_wire tx) (le_trans (by decide) (Tx.minSize_le_length_wire tx))
  have h := htransactions.bind fun transactions ↦ accepts_countedBytes.bind fun signature ↦
    Accepts.pure (Body.mk transactions signature)
  apply h.reindex fun body ↦ (body.transactions, body.signature, ())
  · intro body
    rfl
  · intro body
    constructor
    · rintro ⟨⟨htransactions, heach⟩, hsignature, -⟩
      exact ⟨htransactions, heach, hsignature⟩
    · rintro ⟨htransactions, heach, hsignature⟩
      exact ⟨⟨htransactions, heach⟩, hsignature, trivial⟩
  · intro body _
    simp [wire]
  · rintro ⟨transactions, signature, _⟩ _
    exact ⟨⟨transactions, signature⟩, rfl⟩

theorem length_wire_pos (body : Body) : 0 < body.wire.length := by
  have hsize := VarInt.size_pos (UInt64.ofNat body.transactions.length)
  simp only [wire, List.length_append, VarInt.ofLength, VarInt.length_encode]
  omega

instance : Plain Body := ⟨wire, Fits, Body.read, accepts_read, length_wire_pos⟩

end Body

namespace PlainBlock

/-- Only whole blocks are in the grammar. -/
def Fits (block : PlainBlock) : Prop :=
  ∃ body, block.body = some body ∧ body.Fits

protected def read : Read PlainBlock := do
  let header ← Header.read
  let body ← Body.read
  return ⟨header, some body⟩

theorem read_apply (reader : Reader) :
    PlainBlock.read reader =
      match Header.read reader with
      | .ok header middle =>
        match Body.read middle with
        | .ok body after => .ok ⟨header, some body⟩ after
        | .error e after => .error e after
      | .error e after => .error e after := by
  unfold PlainBlock.read
  rw [Access.bind_apply]
  cases Header.read reader with
  | error e after => rfl
  | ok header middle =>
    dsimp only
    rw [Access.bind_apply]
    cases Body.read middle <;> rfl

/-- The reader of blocks accepts the encodings of full blocks that fit and nothing else. -/
theorem accepts_read : Accepts PlainBlock.read id Fits wire := by
  have h := Header.accepts_read.bind fun header ↦ Body.accepts_read.bind fun body ↦
    Accepts.pure (PlainBlock.mk header (some body))
  intro reader block reader'
  refine (h reader block reader').trans ?_
  constructor
  · rintro ⟨⟨header, body, _⟩, ⟨-, hbody, -⟩, rfl, hahead⟩
    refine ⟨⟨header, some body⟩, ⟨body, rfl, hbody⟩, rfl, ?_⟩
    simpa only [wire, List.append_nil, Option.map_some, Option.getD_some] using hahead
  · rintro ⟨⟨header, _⟩, ⟨body, rfl, hbody⟩, rfl, hahead⟩
    refine ⟨(header, body, ()), ⟨trivial, hbody, trivial⟩, rfl, ?_⟩
    simpa only [wire, List.append_nil, Option.map_some, Option.getD_some] using hahead

theorem length_wire_pos (block : PlainBlock) : 0 < block.wire.length := by
  rw [wire, List.length_append, Header.length_wire]
  exact Nat.add_pos_left (by decide) _

instance : Plain PlainBlock := ⟨wire, Fits, PlainBlock.read, accepts_read, length_wire_pos⟩

end PlainBlock

/-- Values with one encoding, whatever follows it, are one value. -/
theorem Plain.eq_of_append_eq {V : Type} [Plain V] {v w : V} {rest rest' : Bytes}
    (hv : Fits v) (hw : Fits w) (h : wire v ++ rest = wire w ++ rest') :
    v = w ∧ rest = rest' := by
  have hvw : v = w := accepts_read.unique hv hw ⟨rest, rfl⟩ ⟨rest', h.symm⟩
  subst hvw
  exact ⟨rfl, List.append_cancel_left h⟩

/-! ## Values that fit -/

theorem Bytes.countable_of_length_counted {bytes : Bytes} (h : bytes.counted.length < 2 ^ 64) :
    Read.Countable bytes := by
  rw [length_counted, countedSize] at h
  unfold Read.Countable
  omega

/-- A list whose encoding is short enough can be counted, and its items fit if short ones do. -/
theorem Plain.fits_of_length_flatMap {V : Type} [Plain V] {items : List V}
    (hfits : ∀ v : V, (wire v).length < 2 ^ 64 → Fits v)
    (h : (items.flatMap wire).length < 2 ^ 64) : Read.Countable items ∧ ∀ v ∈ items, Fits v := by
  have hcount : items.length * 1 ≤ (items.flatMap wire).length :=
    le_length_flatMap fun v _ ↦ wire_pos v
  refine ⟨?_, ?_⟩
  · unfold Read.Countable
    omega
  · intro v hv
    apply hfits
    obtain ⟨front, back, rfl⟩ := List.append_of_mem hv
    simp only [List.flatMap_append, List.flatMap_cons, List.length_append] at h
    omega

theorem TxIn.fits_of_length_lt (input : TxIn) (h : input.wire.length < 2 ^ 64) : input.Fits := by
  apply Bytes.countable_of_length_counted
  simp only [TxIn.wire, List.length_append] at h
  omega

theorem TxOut.fits_of_length_lt (output : TxOut) (h : output.wire.length < 2 ^ 64) :
    output.Fits := by
  apply Bytes.countable_of_length_counted
  simp only [TxOut.wire, List.length_append] at h
  omega

/-- A transaction fits as soon as its encoding is shorter than `2 ^ 64` bytes. -/
theorem Tx.fits_of_length_lt (tx : Tx) (h : tx.wire.length < 2 ^ 64) : tx.Fits := by
  simp only [Tx.wire, List.length_append] at h
  obtain ⟨hinputs, heach⟩ := Plain.fits_of_length_flatMap TxIn.fits_of_length_lt
    (show (tx.inputs.flatMap TxIn.wire).length < 2 ^ 64 by omega)
  obtain ⟨houtputs, heach'⟩ := Plain.fits_of_length_flatMap TxOut.fits_of_length_lt
    (show (tx.outputs.flatMap TxOut.wire).length < 2 ^ 64 by omega)
  exact ⟨hinputs, heach, houtputs, heach'⟩

theorem Body.fits_of_length_lt (body : Body) (h : body.wire.length < 2 ^ 64) : body.Fits := by
  simp only [Body.wire, List.length_append] at h
  obtain ⟨htransactions, heach⟩ := Plain.fits_of_length_flatMap Tx.fits_of_length_lt
    (show (body.transactions.flatMap Tx.wire).length < 2 ^ 64 by omega)
  exact ⟨htransactions, heach, Bytes.countable_of_length_counted (by omega)⟩

/-- A full block fits as soon as its encoding is shorter than `2 ^ 64` bytes. -/
theorem PlainBlock.fits_of_length_lt {block : PlainBlock} {body : Body}
    (hbody : block.body = some body) (h : block.wire.length < 2 ^ 64) : block.Fits := by
  refine ⟨body, hbody, body.fits_of_length_lt ?_⟩
  simp only [PlainBlock.wire, hbody, Option.map_some, Option.getD_some, List.length_append] at h
  omega

end CoinWire
