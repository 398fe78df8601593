import Mathlib
import CoinWire.Proofs.Holding.Node

/-!
# Transactions that hold a value

Inputs and outputs are fields in which there is nothing to parse; the fields of a transaction are
numbers and two lists of nodes. The layouts are lawful: scanning, parsing and reading a plain value
agree, the encoding is that of the value, and an encoding can be taken apart into the encodings of
the children.
-/

namespace CoinWire

open Holder Plain Read

variable {α β : Type}

/-- A layout of fields in which there is nothing to parse. -/
theorem LawfulLayout.plain {V : Type} [Layout V] [Plain V] [DecidableEq V]
    (hscan : Agrees (Layout.scan V) (Plain.read : Read V) fun _ _ ↦ True)
    (hparse : ∀ config, Layout.parse config = (Plain.read : Read V))
    (hlength : ∀ v : V, Layout.encodedLength v = (wire v).length)
    (hencode : (Layout.encode : Access V Bytes) = do return wire (← get))
    (hadopt : ∀ (raw : Bytes) (v : V), Layout.adopt raw v = v)
    (hcompare : ∀ v w : V, Layout.compare v w = Compared.plain v w) :
    @LawfulLayout V V _ _ (Holder.plain V) := by
  let _ := Holder.plain V
  constructor
  · exact hscan
  · intro config
    rw [hparse config]
    exact (Agrees.refl _).mono fun _ _ h ↦ ⟨h, fun _ ↦ trivial⟩
  · rintro fields _ rfl
    exact hlength fields
  · rw [hencode]
    exact Looks.gets wire fun _ _ h ↦ congrArg wire h
  · intros
    trivial
  · rintro fields _ rfl -
    rw [hadopt]
    exact ⟨rfl, trivial⟩
  · rintro left right _ _ rfl rfl
    rw [hcompare]
    exact ⟨decide_eq_true_iff, ⟨rfl, id⟩, ⟨rfl, id⟩⟩

/-! ## Inputs and outputs -/

instance : Holder TxIn TxIn := Holder.plain TxIn

theorem OutPoint.spans_read : Spans size OutPoint.read :=
  (Spans.take 32).bind fun _ ↦ Spans.uint32.bind fun _ ↦ Spans.pure _

instance : LawfulLayout TxIn TxIn := by
  apply LawfulLayout.plain
  · apply ((Spans.skip OutPoint.size).agrees OutPoint.spans_read).bind
    intro _ outPoint _
    apply skipCounted_agrees.bind
    intro _ script _
    have hpair : Spans 4 (do return TxIn.mk outPoint script (← Read.uint32)) :=
      Spans.uint32.bind fun _ ↦ Spans.pure _
    exact (Spans.skip 4).agrees hpair
  · intro config
    rfl
  · intro input
    simp [Layout.encodedLength, Plain.wire, TxIn.wire, Bytes.length_counted, Nat.add_assoc]
  · rfl
  · intro raw input
    rfl
  · intro left right
    rfl

instance : Holder TxOut TxOut := Holder.plain TxOut

instance : LawfulLayout TxOut TxOut := by
  apply LawfulLayout.plain
  · have hvalue : Spans 8 Read.int64 :=
      ((Spans.bytes 8).bind fun _ ↦ Spans.pure _).bind fun _ ↦ Spans.pure _
    apply ((Spans.skip 8).agrees hvalue).bind
    intro _ value _
    rw [← bind_pure Read.skipCounted]
    apply skipCounted_agrees.bind
    intro _ script _
    exact .pure trivial
  · intro config
    rfl
  · intro output
    simp [Layout.encodedLength, Plain.wire, TxOut.wire, Bytes.length_counted]
  · rfl
  · intro raw output
    rfl
  · intro left right
    rfl

/-! ## Transactions -/

namespace TxFields

/-- The fields hold a transaction if the numbers are its own and each child holds the child in its
place. -/
structure Holds (fields : TxFields) (tx : Tx) : Prop where
  version : fields.version = tx.version
  time : fields.time = tx.time
  inputs : Holder.Holds fields.inputs tx.inputs
  outputs : Holder.Holds fields.outputs tx.outputs
  lockTime : fields.lockTime = tx.lockTime

instance : Holder TxFields Tx where
  Holds := Holds
  Cached fields := Cached fields.inputs ∧ Cached fields.outputs
  Settled fields := Settled fields.inputs ∧ Settled fields.outputs
  settled_of_cached h := ⟨settled_of_cached h.1, settled_of_cached h.2⟩

/-- A question to the inputs is put to the inputs held. -/
theorem looks_onInputs {access : Access (List Input) α} {R : α → β → Prop}
    {question : Question (List TxIn) β} (h : Looks access R question) :
    Looks (onInputs access) R fun tx ↦ question tx.inputs := by
  apply h.focus
  · exact fun fields tx hfields ↦ hfields.inputs
  · intro fields tx inputs hfields hinputs hcached
    exact ⟨⟨hfields.version, hfields.time, hinputs, hfields.outputs, hfields.lockTime⟩,
      And.imp_left hcached⟩

/-- A question to the outputs is put to the outputs held. -/
theorem looks_onOutputs {access : Access (List Output) α} {R : α → β → Prop}
    {question : Question (List TxOut) β} (h : Looks access R question) :
    Looks (onOutputs access) R fun tx ↦ question tx.outputs := by
  apply h.focus
  · exact fun fields tx hfields ↦ hfields.outputs
  · intro fields tx outputs hfields houtputs hcached
    exact ⟨⟨hfields.version, hfields.time, hfields.inputs, houtputs, hfields.lockTime⟩,
      And.imp_right hcached⟩

/-- An edit of the inputs changes the inputs held, and nothing else in the transaction. -/
theorem edits_onInputs {access : Access (List Input) α} {R : α → β → Prop}
    {change : Change (List TxIn) β} (h : Edits access R change) :
    Edits (onInputs access) R (change.onPart Tx.inputs fun inputs tx ↦ { tx with inputs }) := by
  apply h.focus
  · exact fun fields tx hfields ↦ hfields.inputs
  · exact fun fields tx inputs values hfields hinputs ↦
      ⟨hfields.version, hfields.time, hinputs, hfields.outputs, hfields.lockTime⟩
  · exact fun tx ↦ rfl

/-- An edit of the outputs changes the outputs held, and nothing else in the transaction. -/
theorem edits_onOutputs {access : Access (List Output) α} {R : α → β → Prop}
    {change : Change (List TxOut) β} (h : Edits access R change) :
    Edits (onOutputs access) R (change.onPart Tx.outputs fun outputs tx ↦ { tx with outputs }) := by
  apply h.focus
  · exact fun fields tx hfields ↦ hfields.outputs
  · exact fun fields tx outputs values hfields houtputs ↦
      ⟨hfields.version, hfields.time, hfields.inputs, houtputs, hfields.lockTime⟩
  · exact fun tx ↦ rfl

/-- A scan skips exactly the bytes that the plain reader reads, and it fails where that fails. -/
theorem scan_agrees :
    Agrees (Layout.scan TxFields) (Plain.read : Read Tx) fun _ _ ↦ True := by
  have hread : (Plain.read : Read Tx) = do
      let numbers ← (do return (← Read.uint32, ← Read.uint32) : Read (UInt32 × UInt32))
      let inputs ← Read.counted TxIn.minSize "input" TxIn.read
      let outputs ← Read.counted TxOut.minSize "output" TxOut.read
      let lockTime ← Read.uint32
      return ⟨numbers.1, numbers.2, inputs, outputs, lockTime⟩ := by
    simp only [bind_assoc, pure_bind]
    rfl
  have hnumbers : Spans 8 (do return (← Read.uint32, ← Read.uint32) : Read (UInt32 × UInt32)) :=
    Spans.uint32.bind fun _ ↦ Spans.uint32.bind fun _ ↦ Spans.pure _
  have hinput : Agrees (Layout.scan TxIn) TxIn.read fun _ _ ↦ True := LawfulLayout.scan_agrees
  have houtput : Agrees (Layout.scan TxOut) TxOut.read fun _ _ ↦ True := LawfulLayout.scan_agrees
  rw [hread]
  apply ((Spans.skip 8).agrees hnumbers).bind
  intro _ numbers _
  apply (hinput.counted TxIn.minSize "input").discard_left.bind
  intro _ inputs _
  apply (houtput.counted TxOut.minSize "output").discard_left.bind
  intro _ outputs _
  have hlast : Spans 4 (do
      return Tx.mk numbers.1 numbers.2 inputs outputs (← Read.uint32)) :=
    Spans.uint32.bind fun _ ↦ Spans.pure _
  exact (Spans.skip 4).agrees hlast

/-- Parsed fields hold what the plain reader reads, with every child cached if bytes are kept. -/
theorem parse_agrees (config : ParseConfig) :
    Agrees (Layout.parse config : Read TxFields) (Plain.read : Read Tx) fun fields tx ↦
      Holder.Holds fields tx ∧ (config.retain = true → Cached fields) := by
  apply (Agrees.refl Read.uint32).bind
  rintro version _ rfl
  apply (Agrees.refl Read.uint32).bind
  rintro time _ rfl
  apply ((Node.read_agrees config).counted TxIn.minSize "input").bind
  intro inputs values hinputs
  apply ((Node.read_agrees config).counted TxOut.minSize "output").bind
  intro outputs values' houtputs
  apply (Agrees.refl Read.uint32).bind
  rintro lockTime _ rfl
  apply Agrees.pure
  obtain ⟨hholds, hcached⟩ := Node.holds_of_read hinputs
  obtain ⟨hholds', hcached'⟩ := Node.holds_of_read houtputs
  exact ⟨⟨rfl, rfl, hholds, hholds', rfl⟩, fun h ↦ ⟨hcached h, hcached' h⟩⟩

/-- The fields encode to the encoding of the transaction they hold. -/
theorem looks_encode :
    Looks (Layout.encode : Access TxFields Bytes) Eq fun tx ↦ .ok (wire tx) := by
  have hlast (inputs outputs : List Bytes) :
      Looks (do
        let fields ← get
        return Bytes.ofUInt32 fields.version ++ Bytes.ofUInt32 fields.time ++
          VarInt.ofLength inputs ++ inputs.flatten ++ VarInt.ofLength outputs ++
          outputs.flatten ++ Bytes.ofUInt32 fields.lockTime : Access TxFields Bytes) Eq
        fun tx : Tx ↦ .ok (Bytes.ofUInt32 tx.version ++ Bytes.ofUInt32 tx.time ++
          VarInt.ofLength inputs ++ inputs.flatten ++ VarInt.ofLength outputs ++
          outputs.flatten ++ Bytes.ofUInt32 tx.lockTime) := by
    apply Looks.gets
    intro fields tx hfields
    rw [hfields.version, hfields.time, hfields.lockTime]
  have h := (looks_onInputs Node.looks_bytes.each).bind_ok fun inputs ↦
    (looks_onOutputs Node.looks_bytes.each).bind_ok fun outputs ↦ hlast inputs outputs
  apply h.congr
  intro tx
  simp only [VarInt.ofLength, List.length_map, ← List.flatMap_def]
  rfl

/-- Once the fields are encoded, every child has been. -/
theorem settled_of_encode {fields fields' : TxFields} {bytes : Bytes}
    (h : Layout.encode fields = .ok bytes fields') : Settled fields' := by
  obtain ⟨inputs, middle, hinputs, h⟩ := Access.bind_eq_ok_iff.1 h
  obtain ⟨outputs, after, houtputs, h⟩ := Access.bind_eq_ok_iff.1 h
  obtain ⟨nodes, hnodes, rfl⟩ := Access.focus_eq_ok_iff.1 hinputs
  obtain ⟨nodes', hnodes', rfl⟩ := Access.focus_eq_ok_iff.1 houtputs
  injection h with _ hfields'
  rw [← hfields']
  exact ⟨Node.settled_of_each_bytes hnodes, Node.settled_of_each_bytes hnodes'⟩

theorem encodedLength_eq {fields : TxFields} {tx : Tx} (h : Holder.Holds fields tx) :
    Layout.encodedLength fields = (wire tx).length := by
  have hinputs : Node.totalLength fields.inputs = (tx.inputs.flatMap TxIn.wire).length :=
    Node.totalLength_eq h.inputs
  have houtputs : Node.totalLength fields.outputs = (tx.outputs.flatMap TxOut.wire).length :=
    Node.totalLength_eq h.outputs
  have hcount : fields.inputs.length = tx.inputs.length := List.Forall₂.length_eq h.inputs
  have hcount' : fields.outputs.length = tx.outputs.length := List.Forall₂.length_eq h.outputs
  calc
    Layout.encodedLength fields = 8 + VarInt.lengthSize fields.inputs.length +
        Node.totalLength fields.inputs + VarInt.lengthSize fields.outputs.length +
        Node.totalLength fields.outputs + 4 := rfl
    _ = 8 + VarInt.lengthSize tx.inputs.length + (tx.inputs.flatMap TxIn.wire).length +
        VarInt.lengthSize tx.outputs.length + (tx.outputs.flatMap TxOut.wire).length + 4 := by
      rw [hinputs, houtputs, hcount, hcount']
    _ = tx.wire.length := by
      simp only [Tx.wire, List.length_append, Bytes.length_ofUInt32, VarInt.length_ofLength]

/-- Where the inputs and the outputs begin in the encoding. -/
theorem drop_wire {fields : TxFields} {tx : Tx} (h : Holds fields tx) :
    (wire tx).drop (8 + VarInt.lengthSize fields.inputs.length) =
        tx.inputs.flatMap wire ++ (VarInt.ofLength tx.outputs ++ (tx.outputs.flatMap wire ++
          Bytes.ofUInt32 tx.lockTime)) ∧
      (wire tx).drop (8 + VarInt.lengthSize fields.inputs.length + Node.totalLength fields.inputs +
          VarInt.lengthSize fields.outputs.length) =
        tx.outputs.flatMap wire ++ Bytes.ofUInt32 tx.lockTime := by
  have hwire : wire tx = (Bytes.ofUInt32 tx.version ++ Bytes.ofUInt32 tx.time) ++
      (VarInt.ofLength tx.inputs ++ (tx.inputs.flatMap wire ++ (VarInt.ofLength tx.outputs ++
        (tx.outputs.flatMap wire ++ Bytes.ofUInt32 tx.lockTime)))) := by
    simp [Plain.wire, Tx.wire]
  have hnumbers : (Bytes.ofUInt32 tx.version ++ Bytes.ofUInt32 tx.time).length = 8 := by
    simp
  have hinputs : (wire tx).drop (8 + VarInt.lengthSize fields.inputs.length) =
      tx.inputs.flatMap wire ++ (VarInt.ofLength tx.outputs ++ (tx.outputs.flatMap wire ++
        Bytes.ofUInt32 tx.lockTime)) := by
    rw [← List.drop_drop, hwire, List.drop_left' hnumbers]
    exact Node.drop_ofLength h.inputs _
  refine ⟨hinputs, ?_⟩
  rw [← List.drop_drop, ← List.drop_drop, hinputs]
  calc
    _ = (VarInt.ofLength tx.outputs ++ (tx.outputs.flatMap wire ++
          Bytes.ofUInt32 tx.lockTime)).drop (VarInt.lengthSize fields.outputs.length) := by
      rw [Node.drop_totalLength h.inputs]
    _ = tx.outputs.flatMap wire ++ Bytes.ofUInt32 tx.lockTime := Node.drop_ofLength h.outputs _

/-- Encoded fields that adopt their encoding hold the same transaction, with every child cached. -/
theorem adopt_wire {fields : TxFields} {tx : Tx} (h : Holder.Holds fields tx)
    (hsettled : Settled fields) :
    Holder.Holds (Layout.adopt (wire tx) fields) tx ∧ Cached (Layout.adopt (wire tx) fields) := by
  obtain ⟨inputs, hinputs, hholds, hcached⟩ := Node.adoptEach_append h.inputs hsettled.1
    (VarInt.ofLength tx.outputs ++ (tx.outputs.flatMap wire ++ Bytes.ofUInt32 tx.lockTime))
  obtain ⟨outputs, houtputs, hholds', hcached'⟩ := Node.adoptEach_append h.outputs hsettled.2
    (Bytes.ofUInt32 tx.lockTime)
  have hadopt : Layout.adopt (wire tx) fields = { fields with inputs, outputs } := by
    dsimp only [Layout.adopt]
    rw [(drop_wire h).1, hinputs]
    dsimp only
    rw [Node.drop_ofLength h.outputs, houtputs]
  rw [hadopt]
  exact ⟨⟨h.version, h.time, hholds, hholds', h.lockTime⟩, ⟨hcached, hcached'⟩⟩

/-- Fields are compared as the transactions they hold. -/
theorem compares {left right : TxFields} {v w : Tx} (hv : Holder.Holds left v)
    (hw : Holder.Holds right w) : Compares (Layout.compare left right) left right v w := by
  have hinputs := compares_lists Node.compares hv.inputs hw.inputs
  have houtputs := compares_lists Node.compares hv.outputs hw.outputs
  have hequal : v = w ↔ (left.version = right.version ∧ left.time = right.time ∧
      left.lockTime = right.lockTime) ∧ v.inputs = w.inputs ∧ v.outputs = w.outputs := by
    rw [Tx.ext_iff, hv.version, hw.version, hv.time, hw.time, hv.lockTime, hw.lockTime]
    tauto
  have hparts {fields : TxFields} {tx : Tx} (h : Holds fields tx) {inputs : List Input}
      {outputs : List Output} (hinputs : Holder.Holds inputs tx.inputs ∧
        (Cached fields.inputs → Cached inputs)) (houtputs : Holder.Holds outputs tx.outputs ∧
        (Cached fields.outputs → Cached outputs)) :
      Holder.Holds { fields with inputs, outputs } tx ∧
        (Cached fields → Cached { fields with inputs, outputs }) :=
    ⟨⟨h.version, h.time, hinputs.1, houtputs.1, h.lockTime⟩, And.imp hinputs.2 houtputs.2⟩
  change Compares (compare left right) left right v w
  unfold compare
  dsimp only
  split_ifs with hnumber hinput
  · refine ⟨?_, hparts hv hinputs.left houtputs.left, hparts hw hinputs.right houtputs.right⟩
    rw [hequal, ← hinputs.equal, ← houtputs.equal]
    exact ⟨fun houtput ↦ ⟨hnumber, hinput, houtput⟩, fun h ↦ h.2.2⟩
  · refine ⟨?_, hparts hv hinputs.left ⟨hv.outputs, id⟩, hparts hw hinputs.right ⟨hw.outputs, id⟩⟩
    rw [hequal, ← hinputs.equal]
    exact ⟨fun hfalse ↦ absurd hfalse Bool.false_ne_true, fun h ↦ absurd h.2.1 hinput⟩
  · refine ⟨?_, ⟨hv, id⟩, ⟨hw, id⟩⟩
    rw [hequal]
    exact ⟨fun hfalse ↦ absurd hfalse Bool.false_ne_true, fun h ↦ absurd h.1 hnumber⟩

instance : LawfulLayout TxFields Tx where
  scan_agrees := scan_agrees
  parse_agrees := parse_agrees
  encodedLength_eq := encodedLength_eq
  looks_encode := looks_encode
  settled_of_encode := settled_of_encode
  adopt := adopt_wire
  compares := compares

end TxFields

/-! ## Contents -/

theorem Transaction.looks_contents : Looks Transaction.contents Eq fun tx ↦ .ok tx := by
  have hinput : Looks (Node.fields : Access Input TxIn) Eq fun input ↦ .ok input :=
    Node.looks_fields
  have houtput : Looks (Node.fields : Access Output TxOut) Eq fun output ↦ .ok output :=
    Node.looks_fields
  have hlast (inputs : List TxIn) (outputs : List TxOut) :
      Looks (do
        let fields ← get
        return ⟨fields.version, fields.time, inputs, outputs, fields.lockTime⟩ :
          Access TxFields Tx) Eq
        fun tx : Tx ↦ .ok ⟨tx.version, tx.time, inputs, outputs, tx.lockTime⟩ := by
    apply Looks.gets
    intro fields tx hfields
    rw [hfields.version, hfields.time, hfields.lockTime]
  have h := (TxFields.looks_onInputs hinput.each).bind_ok fun inputs ↦
    (TxFields.looks_onOutputs houtput.each).bind_ok fun outputs ↦ hlast inputs outputs
  apply (Node.looks_look h).congr
  intro tx
  simp only [List.map_id']

end CoinWire
