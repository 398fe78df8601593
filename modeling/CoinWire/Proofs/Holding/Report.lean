import Mathlib
import CoinWire.Proofs.Holding.Block

/-!
# Fields and reports

What is asked of single values. Every question to a tree with caches is answered as the same
question to the value it holds, down to the sums and hashes of a report.
-/

namespace CoinWire

open Holder Plain

variable {α β γ δ : Type}

/-! ## Inputs and outputs -/

namespace Input

theorem looks_fields : Looks (Node.fields : Access Input TxIn) Eq fun input ↦ .ok input :=
  Node.looks_fields

/-- An input with a cache tells as its value does whether it makes new coins. -/
theorem looks_isCoinbase : Looks isCoinbase Eq fun input ↦ .ok input.outPoint.isNull :=
  (looks_fields.answer_ok TxIn.outPoint).answer_ok OutPoint.isNull

end Input

namespace Output

theorem looks_fields : Looks (Node.fields : Access Output TxOut) Eq fun output ↦ .ok output :=
  Node.looks_fields

theorem looks_value : Looks value Eq fun output ↦ .ok output.value :=
  looks_fields.answer_ok TxOut.value

theorem looks_script : Looks script Eq fun output ↦ .ok output.script :=
  looks_fields.answer_ok TxOut.script

/-- The script can always be read, so the answer for one that cannot is never given. -/
theorem looks_ask (question : Bytes → Bool) :
    Looks (ask question) Eq fun output ↦ .ok (question output.script) := by
  intro output v houtput
  unfold ask
  obtain ⟨output', hholds, hcached, ⟨script, _, hscript, hfields, rfl⟩ | ⟨e, -, hf⟩⟩ :=
    looks_script output v houtput
  · injection hfields with hfields
    rw [hscript]
    exact ⟨output', hholds, hcached, .inl ⟨_, _, rfl, rfl, congrArg question hfields.symm⟩⟩
  · contradiction

/-- The second question is put only where the first was answered with no. -/
theorem looks_isMineOrWatched (wallet : Script.Wallet) :
    Looks (isMineOrWatched wallet) Eq fun output ↦
      .ok (wallet.owns output.script || wallet.watches output.script) := by
  have hnext (mine : Bool) :
      Looks (if mine then pure true else isWatched wallet) Eq fun output : TxOut ↦
        .ok (mine || wallet.watches output.script) := by
    cases mine with
    | true => exact Looks.pure rfl
    | false => exact looks_ask wallet.watches
  exact (looks_ask wallet.owns).bind_ok hnext

end Output

/-! ## Transactions -/

namespace Transaction

/-- The hash of a transaction is that of the value held, whether or not its bytes are kept. -/
theorem looks_hash : Looks (Node.hash : Access Transaction Hash) Eq fun tx ↦ .ok tx.hash :=
  Node.looks_hash

/-- The fields of a transaction hold those of the value, child by child. -/
theorem looks_fields :
    Looks (Node.fields : Access Transaction TxFields) Holder.Holds fun tx ↦ .ok tx :=
  Node.looks_fields

theorem looks_version : Looks version Eq fun tx ↦ .ok tx.version :=
  looks_fields.answer fun _ _ h ↦ h.version

theorem looks_time : Looks time Eq fun tx ↦ .ok tx.time :=
  looks_fields.answer fun _ _ h ↦ h.time

theorem looks_lockTime : Looks lockTime Eq fun tx ↦ .ok tx.lockTime :=
  looks_fields.answer fun _ _ h ↦ h.lockTime

/-- There are as many inputs as the value has. -/
theorem looks_inputCount : Looks inputCount Eq fun tx ↦ .ok tx.inputs.length :=
  looks_fields.answer fun _ _ h ↦ List.Forall₂.length_eq h.inputs

theorem looks_outputCount : Looks outputCount Eq fun tx ↦ .ok tx.outputs.length :=
  looks_fields.answer fun _ _ h ↦ List.Forall₂.length_eq h.outputs

/-- The inputs are looked at only where there is one. -/
theorem looks_isCoinbase : Looks isCoinbase Eq fun tx ↦ .ok tx.isCoinbase := by
  have hone : Looks (do
      let answers ← Node.look (TxFields.onInputs (Access.each Input.isCoinbase))
      return answers.all id : Access Transaction Bool) Eq
      fun tx ↦ .ok ((tx.inputs.map fun input ↦ input.outPoint.isNull).all id) :=
    (Node.looks_look (TxFields.looks_onInputs Input.looks_isCoinbase.each)).answer_ok
      (List.all · id)
  have hnext (count : Nat) :
      Looks (if count = 1 then do
          let answers ← Node.look (TxFields.onInputs (Access.each Input.isCoinbase))
          return answers.all id
        else return false : Access Transaction Bool) Eq
      fun tx ↦ if count = 1 then
          .ok ((tx.inputs.map fun input ↦ input.outPoint.isNull).all id)
        else .ok false := by
    split_ifs
    · exact hone
    · exact Looks.pure rfl
  apply (looks_inputCount.bind_ok hnext).congr
  rintro ⟨version, time, inputs, outputs, lockTime⟩
  match inputs with
  | [] => rfl
  | [input] => simp [Tx.isCoinbase]
  | first :: second :: rest => simp [Tx.isCoinbase]

/-- The sum runs over the outputs' values in their order. -/
theorem looks_outputValue : Looks outputValue Eq fun tx ↦ .ok tx.outputValue :=
  (Node.looks_look (TxFields.looks_onOutputs Output.looks_value.each)).answer_ok
    (List.foldl saturatingAdd 0)

/-- A report of a transaction is the report of the value it holds. -/
theorem looks_report : Looks report Eq fun tx ↦ .ok tx.report :=
  looks_contents.bind_ok fun fields ↦ looks_hash.bind_ok fun hash ↦
    looks_isCoinbase.bind_ok fun coinbase ↦ looks_outputValue.answer_ok
      (TxReport.mk fields hash coinbase)

end Transaction

/-! ## Blocks -/

namespace Block

/-- The header's fields are those of the value's header. -/
theorem looks_headerFields : Looks headerFields Eq fun v ↦ .ok v.header := by
  have h : Looks (Node.fields : Access (Node Header) Header) Eq fun header ↦ .ok header :=
    Node.looks_fields
  exact looks_onHeader h

/-- A block's hash is its header's, and the body is not looked at. -/
theorem looks_hash : Looks Block.hash Eq fun v ↦ .ok v.hash :=
  looks_onHeader Node.looks_hash

/-- A question to the list of transactions is put to the value's, if there is a body. -/
theorem looks_lookTransactions {access : Access (List Transaction) α} {R : α → β → Prop}
    {question : Question (List Tx) β} (h : Looks access R question) :
    Looks (lookTransactions access) R
      (PlainBlock.askBody fun body ↦ question body.transactions) :=
  looks_onBody (Node.looks_look (BodyFields.looks_onTransactions h))

theorem looks_transactionCount :
    Looks transactionCount Eq (PlainBlock.askBody fun body ↦ .ok body.transactions.length) :=
  looks_lookTransactions (Looks.gets List.length fun _ _ h ↦ List.Forall₂.length_eq h)

theorem looks_signature :
    Looks signature Eq (PlainBlock.askBody fun body ↦ .ok body.signature) := by
  have h : Looks (Node.fields : Access (Node BodyFields) BodyFields) Holder.Holds
      fun body ↦ .ok body := Node.looks_fields
  exact looks_onBody (h.answer fun _ _ hfields ↦ hfields.signature)

/-- The root is computed from the hashes of the transactions held. -/
theorem looks_computeMerkleRoot : Looks computeMerkleRoot Eq PlainBlock.computeMerkleRoot := by
  apply ((looks_lookTransactions Transaction.looks_hash.each).answer
    fun _ _ ↦ congrArg Hash.merkleRoot).congr
  rintro ⟨header, body⟩
  cases body <;> rfl

/-- Parsing a block asks nothing of it that its value could refuse. -/
theorem looks_ensureParsed : Looks ensureParsed Eq fun _ ↦ .ok () := by
  have hbody : Looks (Node.fields : Access (Node BodyFields) BodyFields) Holder.Holds
      fun body ↦ .ok body := Node.looks_fields
  apply (looks_headerFields.discard.bind fun _ _ _ ↦ (looks_onBody? hbody).discard).congr
  rintro ⟨header, body⟩
  cases body <;> rfl

/-- A report of a block is the report of the value it holds. -/
theorem looks_report : Looks report Eq fun v ↦ .ok v.report := by
  have hlast (transactions : List TxReport) :
      Looks (do return (transactions, (← get).signature) :
        Access BodyFields (List TxReport × Bytes)) Eq
        fun body : Body ↦ .ok (transactions, body.signature) := by
    apply Looks.gets
    intro fields body hfields
    rw [hfields.signature]
  have hbody := Node.looks_look (F := BodyFields)
    ((BodyFields.looks_onTransactions Transaction.looks_report.each).bind_ok hlast)
  have h := looks_headerFields.bind_ok fun header ↦ looks_hash.bind_ok fun hash ↦
    (looks_onBody? hbody).answer fun _ _ hrel ↦
      congrArg (BlockReport.mk header hash) (eq_of_rel_eq hrel)
  apply h.congr
  rintro ⟨header, body⟩
  cases body <;> rfl

end Block

end CoinWire
