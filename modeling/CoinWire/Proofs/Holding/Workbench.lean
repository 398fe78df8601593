import Mathlib
import CoinWire.Proofs.Holding.Report
import CoinWire.Proofs.Uncached.Workbench

/-!
# The workbench and its counterpart without caches

Items hold plain items. Every visit of an item answers as its counterpart does, and a look at a
place or an edit of it keeps what the item holds in step with the plain item. A source makes an item
exactly where it makes a plain one.
-/

namespace CoinWire

open Holder Plain Read

variable {σ V α β γ δ : Type}

/-! ## Items -/

/-- An item with caches holds a plain item of the same kind if its tree holds the plain tree. -/
inductive Item.Holds : Item → PlainItem → Prop where
  | block {block : Block} {v : PlainBlock} (h : Holder.Holds block v) :
    Holds (.block block) (.block v)
  | transaction {transaction : Transaction} {tx : Tx} (h : Holder.Holds transaction tx) :
    Holds (.transaction transaction) (.transaction tx)
  | input {input : Input} {v : TxIn} (h : Holder.Holds input v) : Holds (.input input) (.input v)
  | output {output : Output} {v : TxOut} (h : Holder.Holds output v) :
    Holds (.output output) (.output v)

/-- The access does to an item what `change` does to the plain item it holds. -/
def Item.Edits (access : Access Item α) (R : α → β → Prop) (change : Change PlainItem β) : Prop :=
  ∀ item v, item.Holds v →
    (∃ a item' b v', access item = .ok a item' ∧ change v = .ok (b, v') ∧ R a b ∧ item'.Holds v') ∨
      ∃ (e : Absence) (item' : Item), access item = .error e.error item' ∧
        change v = .error e ∧ item'.Holds v

/-- An edit of a value is an edit of the item that the value is. -/
theorem Edits.of_item [Holder σ V] {access : Access σ α} {R : α → β → Prop} {change : Change V β}
    (h : Edits access R change) {wrap : σ → Item} {wrapPlain : V → PlainItem}
    (hwrap : ∀ {s v}, Holds s v → (wrap s).Holds (wrapPlain v)) {s : σ} {v : V} (hs : Holds s v) :
    (∃ a item' b v', Access.mapState wrap (access s) = .ok a item' ∧
      ((change v).map fun found ↦ (found.1, wrapPlain found.2)) = .ok (b, v') ∧ R a b ∧
        item'.Holds v') ∨
      ∃ (e : Absence) (item' : Item), Access.mapState wrap (access s) = .error e.error item' ∧
        ((change v).map fun found ↦ (found.1, wrapPlain found.2)) = .error e ∧
          item'.Holds (wrapPlain v) := by
  obtain ⟨a, s', b, v', ha, hb, hR, hs'⟩ | ⟨e, s', he, hf, hs'⟩ := h s v hs
  · rw [ha, hb]
    exact .inl ⟨a, wrap s', b, wrapPlain v', rfl, rfl, hR, hwrap hs'⟩
  · rw [he, hf]
    exact .inr ⟨e, wrap s', rfl, rfl, hwrap hs'⟩

/-- A look at a value is an edit of the item that changes nothing. -/
theorem Looks.of_item [Holder σ V] {access : Access σ α} {R : α → β → Prop}
    {question : Question V β} (h : Looks access R question) {wrap : σ → Item}
    {wrapPlain : V → PlainItem} (hwrap : ∀ {s v}, Holds s v → (wrap s).Holds (wrapPlain v))
    {s : σ} {v : V} (hs : Holds s v) :
    (∃ a item' b v', Access.mapState wrap (access s) = .ok a item' ∧
      (question v).map (·, wrapPlain v) = .ok (b, v') ∧ R a b ∧ item'.Holds v') ∨
      ∃ (e : Absence) (item' : Item), Access.mapState wrap (access s) = .error e.error item' ∧
        (question v).map (·, wrapPlain v) = .error e ∧ item'.Holds (wrapPlain v) := by
  obtain ⟨s', hs', -, ⟨a, b, ha, hb, hR⟩ | ⟨e, he, hf⟩⟩ := h s v hs
  · rw [ha, hb]
    exact .inl ⟨a, wrap s', b, wrapPlain v, rfl, rfl, hR, hwrap hs'⟩
  · rw [he, hf]
    exact .inr ⟨e, wrap s', rfl, rfl, hwrap hs'⟩

namespace Visit

/-- Every look of the visit answers as the inquiry does. -/
structure Asks (visit : Visit α) (R : α → β → Prop) (inquiry : Inquiry β) : Prop where
  block : Looks visit.block R inquiry.block
  transaction : Looks visit.transaction R inquiry.transaction
  input : Looks visit.input R inquiry.input
  output : Looks visit.output R inquiry.output

/-- Every access of the visit edits as the alteration says. -/
structure Makes (visit : Visit α) (R : α → β → Prop) (alteration : Alteration β) : Prop where
  block : Edits visit.block R alteration.block
  transaction : Edits visit.transaction R alteration.transaction
  input : Edits visit.input R alteration.input
  output : Edits visit.output R alteration.output

variable {visit : Visit α} {R : α → β → Prop} {inquiry : Inquiry β} {alteration : Alteration β}

/-- A question is an alteration that changes nothing. -/
theorem Asks.makes (h : visit.Asks R inquiry) : visit.Makes R (Alteration.ask inquiry) :=
  ⟨h.block.edits, h.transaction.edits, h.input.edits, h.output.edits⟩

theorem Asks.lookTransaction? (h : visit.Asks R inquiry) (place : Place) :
    Looks (visit.lookTransaction? place) (Option.Rel R) (inquiry.lookTransaction? place) := by
  unfold Visit.lookTransaction? Inquiry.lookTransaction?
  cases place.input with
  | some index => exact Node.looks_look (TxFields.looks_onInputs (h.input.at? index))
  | none =>
    cases place.output with
    | some index => exact Node.looks_look (TxFields.looks_onOutputs (h.output.at? index))
    | none => exact h.transaction.map fun _ _ ↦ .some

/-- Below a block, the question is put at the same place of the value. -/
theorem Asks.lookBlock? (h : visit.Asks R inquiry) (place : Place) :
    Looks (visit.lookBlock? place) (Option.Rel R) (inquiry.lookBlock? place) := by
  unfold Visit.lookBlock? Inquiry.lookBlock?
  cases place.transaction with
  | some index =>
    apply (Block.looks_lookTransactions ((h.lookTransaction? place).at? index)).answer
    rintro _ _ (hfound | hnone)
    · exact hfound
    · exact .none
  | none => exact h.block.map fun _ _ ↦ .some

/-- Wherever a question is put in a tree, it is put at the same place of the value. -/
theorem Asks.look? (h : visit.Asks R inquiry) (place : Place) :
    Item.Edits (visit.look? place) (Option.Rel R) (Change.ask (inquiry.look? place)) := by
  rintro _ _ (hblock | htransaction | hinput | houtput)
  · exact (h.lookBlock? place).of_item .block hblock
  · exact (h.lookTransaction? place).of_item .transaction htransaction
  · exact (h.input.map fun _ _ ↦ Option.Rel.some).of_item .input hinput
  · exact (h.output.map fun _ _ ↦ Option.Rel.some).of_item .output houtput

/-- Below a transaction, the alteration is made at the same place of the value. -/
theorem Makes.reachTransaction (h : visit.Makes R alteration) (place : Place) :
    Edits (visit.reachTransaction place) R (alteration.reachTransaction place) := by
  unfold Visit.reachTransaction Alteration.reachTransaction
  cases place.input with
  | some index => exact Node.edits_edit (TxFields.edits_onInputs (h.input.atIndex index))
  | none =>
    cases place.output with
    | some index => exact Node.edits_edit (TxFields.edits_onOutputs (h.output.atIndex index))
    | none => exact h.transaction

/-- Below a block, the alteration is made at the same place of the value. -/
theorem Makes.reachBlock (h : visit.Makes R alteration) (place : Place) :
    Edits (visit.reachBlock place) R (alteration.reachBlock place) := by
  unfold Visit.reachBlock Alteration.reachBlock
  cases place.transaction with
  | some index =>
    exact Block.edits_editBody (BodyFields.edits_onTransactions
      ((h.reachTransaction place).atIndex index))
  | none => exact h.block

/-- Wherever an alteration is made in a tree, it is made at the same place of the value. -/
theorem Makes.reach (h : visit.Makes R alteration) (place : Place) :
    Item.Edits (visit.reach place) R (alteration.reach place) := by
  rintro _ _ (hblock | htransaction | hinput | houtput)
  · exact (h.reachBlock place).of_item .block hblock
  · exact (h.reachTransaction place).of_item .transaction htransaction
  · exact h.input.of_item .input hinput
  · exact h.output.of_item .output houtput

/-! ### Looks -/

theorem asks_found : found.Asks Item.Holds Inquiry.found where
  block := Looks.get.map fun _ _ ↦ .block
  transaction := Looks.get.map fun _ _ ↦ .transaction
  input := Looks.get.map fun _ _ ↦ .input
  output := Looks.get.map fun _ _ ↦ .output

theorem asks_length : length.Asks Eq Inquiry.length where
  block := Looks.get.map fun _ _ ↦ Block.Holds.length_eq
  transaction := Looks.get.map fun _ _ ↦ Node.Holds.length_eq
  input := Looks.get.map fun _ _ ↦ Node.Holds.length_eq
  output := Looks.get.map fun _ _ ↦ Node.Holds.length_eq

theorem asks_ensureParsed : ensureParsed.Asks Eq (Inquiry.always ()) where
  block := Block.looks_ensureParsed
  transaction := Transaction.looks_fields.discard
  input := Input.looks_fields.discard
  output := Output.looks_fields.discard

/-- An encoding without caches is the one the value has. -/
theorem asks_bytes : bytes.Asks Eq Inquiry.bytes where
  block := Block.looks_bytes
  transaction := Node.looks_bytes
  input := Node.looks_bytes
  output := Node.looks_bytes

theorem asks_report : report.Asks Eq Inquiry.report where
  block := Block.looks_report.answer_ok _
  transaction := Transaction.looks_report.answer_ok _
  input := Input.looks_fields.answer_ok _
  output := Output.looks_fields.answer_ok _

theorem looks_getBlock (field : Field) : Looks (getBlock field) Eq (Inquiry.getBlock field) := by
  cases field with
  | version => exact Block.looks_headerFields.answer_ok fun header ↦ word header.version
  | prev => exact Block.looks_headerFields.answer_ok fun header ↦ Answer.hash header.prev
  | merkleRoot =>
    exact Block.looks_headerFields.answer_ok fun header ↦ Answer.hash header.merkleRoot
  | time => exact Block.looks_headerFields.answer_ok fun header ↦ word header.time
  | bits => exact Block.looks_headerFields.answer_ok fun header ↦ word header.bits
  | nonce => exact Block.looks_headerFields.answer_ok fun header ↦ word header.nonce
  | header => exact Block.looks_headerFields.answer_ok Answer.header
  | hash => exact Block.looks_hash.answer_ok Answer.hash
  | transactionCount =>
    apply (Block.looks_transactionCount.answer fun _ _ ↦ congrArg Answer.number).congr
    rintro ⟨header, body⟩
    cases body <;> rfl
  | signature =>
    apply (Block.looks_signature.answer fun _ _ ↦ congrArg Answer.bytes).congr
    rintro ⟨header, body⟩
    cases body <;> rfl
  | computedMerkleRoot =>
    exact Block.looks_computeMerkleRoot.answer fun _ _ ↦ congrArg Answer.hash
  | _ => exact Looks.pure rfl

theorem looks_getTransaction (field : Field) :
    Looks (getTransaction field) Eq (Inquiry.getTransaction field) := by
  cases field with
  | version => exact Transaction.looks_version.answer_ok word
  | time => exact Transaction.looks_time.answer_ok word
  | lockTime => exact Transaction.looks_lockTime.answer_ok word
  | hash => exact Transaction.looks_hash.answer_ok Answer.hash
  | inputCount => exact Transaction.looks_inputCount.answer_ok Answer.number
  | outputCount => exact Transaction.looks_outputCount.answer_ok Answer.number
  | coinbase => exact Transaction.looks_isCoinbase.answer_ok Answer.flag
  | outputValue => exact Transaction.looks_outputValue.answer_ok Answer.amount
  | _ => exact Looks.pure rfl

theorem looks_getInput (field : Field) : Looks (getInput field) Eq (Inquiry.getInput field) := by
  cases field with
  | outPoint => exact (Input.looks_fields.answer_ok TxIn.outPoint).answer_ok Answer.outPoint
  | scriptSig => exact (Input.looks_fields.answer_ok TxIn.script).answer_ok Answer.bytes
  | sequence => exact (Input.looks_fields.answer_ok TxIn.sequence).answer_ok word
  | hasSequence =>
    exact ((Input.looks_fields.answer_ok TxIn.sequence).answer_ok
      (· != TxIn.finalSequence)).answer_ok Answer.flag
  | coinbase => exact Input.looks_isCoinbase.answer_ok Answer.flag
  | _ => exact Looks.pure rfl

theorem looks_getOutput (field : Field) : Looks (getOutput field) Eq (Inquiry.getOutput field) := by
  cases field with
  | value => exact Output.looks_value.answer_ok Answer.amount
  | scriptPubkey => exact Output.looks_script.answer_ok Answer.bytes
  | _ => exact Looks.pure rfl

/-- Every field that can be read is read off the value. -/
theorem asks_get (field : Field) : (get field).Asks Eq (Inquiry.get field) where
  block := looks_getBlock field
  transaction := looks_getTransaction field
  input := looks_getInput field
  output := looks_getOutput field

/-- A comparison tells whether the values are equal, whatever bytes are kept on either side. -/
theorem looks_comparing [Holder σ V] [DecidableEq V] {compare : σ → σ → Compared σ} {other : σ}
    {w : V} (h : ∀ {s v}, Holds s v → Compares (compare s other) s other v w) :
    Looks (comparing compare other) Eq fun v ↦ .ok (.flag (decide (v = w))) := by
  intro s v hs
  have hcompares := h hs
  refine ⟨_, hcompares.left.1, hcompares.left.2, .inl ⟨_, _, rfl, rfl, ?_⟩⟩
  rw [Bool.eq_iff_iff.2 (hcompares.equal.trans decide_eq_true_iff.symm)]

/-- Items of one kind compare as their values do. Items of two kinds are a misfit. -/
theorem asks_against {item : Item} {v : PlainItem} (h : item.Holds v) :
    (against item).Asks Eq (Inquiry.against v) := by
  cases h with
  | block h =>
    exact ⟨looks_comparing fun hs ↦ Block.compares hs h, .pure rfl, .pure rfl, .pure rfl⟩
  | transaction h =>
    exact ⟨.pure rfl, looks_comparing fun hs ↦ Node.compares hs h, .pure rfl, .pure rfl⟩
  | input h =>
    exact ⟨.pure rfl, .pure rfl, looks_comparing fun hs ↦ Node.compares hs h, .pure rfl⟩
  | output h =>
    exact ⟨.pure rfl, .pure rfl, .pure rfl, looks_comparing fun hs ↦ Node.compares hs h⟩

theorem asks_ownership (wallet : Script.Wallet) :
    (ownership wallet).Asks Eq (Inquiry.ownership wallet) where
  block := Looks.pure rfl
  transaction := Looks.pure rfl
  input := Looks.pure rfl
  output := (Output.looks_ask wallet.owns).bind_ok fun mine ↦
    (Output.looks_ask wallet.watches).bind_ok fun watched ↦
      (Output.looks_isMineOrWatched wallet).answer_ok (Answer.ownership mine watched)

/-! ### Edits -/

/-- To drop the caches of an item changes nothing in the value. -/
theorem makes_invalidate : invalidate.Makes Eq (Alteration.ask (Inquiry.always ())) where
  block := Block.edits_invalidate
  transaction := Node.edits_invalidate
  input := Node.edits_invalidate
  output := Node.edits_invalidate

/-- To serialize an item changes nothing in the value and answers with its encoding. -/
theorem makes_serialize : serialize.Makes Eq (Alteration.ask Inquiry.bytes) where
  block := Block.edits_serialize
  transaction := Node.edits_serialize
  input := Node.edits_serialize
  output := Node.edits_serialize

theorem edits_plainly [Holder σ V] {access : Access σ Unit} {change : Change V Unit}
    (h : Edits access Eq change) : Edits (plainly access) Eq (Alteration.plainly change) :=
  h.answer fun _ _ _ ↦ rfl

theorem edits_misfit [Holder σ V] :
    Edits (return .misfit : Access σ Answer) Eq (Alteration.misfit : Change V Answer) :=
  (Looks.pure rfl).edits

theorem edits_setHeader (f : Header → Header) :
    Edits (plainly (Block.editHeader (modify f))) Eq
      (Alteration.plainly (PlainBlock.onHeader (.modify f))) :=
  edits_plainly (Block.edits_editHeader (Edits.modify fun _ _ ↦ congrArg f))

/-- A setter of a transaction's own fields leaves its children as they are. -/
theorem edits_setTransaction {f : TxFields → TxFields} {g : Tx → Tx}
    (h : ∀ fields tx, TxFields.Holds fields tx → TxFields.Holds (f fields) (g tx)) :
    Edits (plainly (Node.edit (modify f))) Eq (Alteration.plainly (.modify g)) :=
  edits_plainly (Node.edits_edit (Edits.modify h))

/-- Fields that stand for themselves are set as the plain value is. -/
theorem edits_setPlain {F : Type} [Layout F] [Plain F] [Holder F F] [LawfulLayout F F]
    (hplain : ∀ {s v : F}, Holds s v ↔ s = v) (f : F → F) :
    Edits (plainly (Node.edit (modify f))) Eq (Alteration.plainly (.modify f) : Change F Answer) :=
  edits_plainly (Node.edits_edit (Edits.modify fun _ _ h ↦ hplain.2 (congrArg f (hplain.1 h))))

/-- Every setter does to the value what it does to the tree that holds it. -/
theorem makes_set (assignment : Assignment) :
    (Visit.set assignment).Makes Eq (Alteration.set assignment) := by
  cases assignment with
  | version value =>
    refine ⟨edits_setHeader _, edits_setTransaction ?_, edits_misfit, edits_misfit⟩
    exact fun _ _ h ↦ ⟨rfl, h.time, h.inputs, h.outputs, h.lockTime⟩
  | time value =>
    refine ⟨edits_setHeader _, edits_setTransaction ?_, edits_misfit, edits_misfit⟩
    exact fun _ _ h ↦ ⟨h.version, rfl, h.inputs, h.outputs, h.lockTime⟩
  | lockTime value =>
    refine ⟨edits_misfit, edits_setTransaction ?_, edits_misfit, edits_misfit⟩
    exact fun _ _ h ↦ ⟨h.version, h.time, h.inputs, h.outputs, rfl⟩
  | bits value => exact ⟨edits_setHeader _, edits_misfit, edits_misfit, edits_misfit⟩
  | nonce value => exact ⟨edits_setHeader _, edits_misfit, edits_misfit, edits_misfit⟩
  | prev value => exact ⟨edits_setHeader _, edits_misfit, edits_misfit, edits_misfit⟩
  | merkleRoot value => exact ⟨edits_setHeader _, edits_misfit, edits_misfit, edits_misfit⟩
  | signature value =>
    refine ⟨?_, edits_misfit, edits_misfit, edits_misfit⟩
    exact edits_plainly (Block.edits_editBody (Edits.modify fun _ _ h ↦ ⟨h.transactions, rfl⟩))
  | outPoint value =>
    exact ⟨edits_misfit, edits_misfit, edits_setPlain Iff.rfl _, edits_misfit⟩
  | scriptSig value =>
    exact ⟨edits_misfit, edits_misfit, edits_setPlain Iff.rfl _, edits_misfit⟩
  | sequence value =>
    exact ⟨edits_misfit, edits_misfit, edits_setPlain Iff.rfl _, edits_misfit⟩
  | value value =>
    exact ⟨edits_misfit, edits_misfit, edits_misfit, edits_setPlain Iff.rfl _⟩
  | scriptPubkey value =>
    exact ⟨edits_misfit, edits_misfit, edits_misfit, edits_setPlain Iff.rfl _⟩

/-- To take the header for an edit changes nothing in the value and answers with its header. -/
theorem makes_headerEdit : headerEdit.Makes Eq Alteration.headerEdit where
  block := (Block.edits_editHeader (Looks.get (σ := Header)).edits).answer
    fun _ _ ↦ congrArg Answer.header
  transaction := edits_misfit
  input := edits_misfit
  output := edits_misfit

theorem makes_put {item : Item} {v : PlainItem} (h : item.Holds v) :
    (put item).Makes Eq (Alteration.put v) := by
  cases h with
  | block h => exact ⟨edits_plainly (.set h), edits_misfit, edits_misfit, edits_misfit⟩
  | transaction h => exact ⟨edits_misfit, edits_plainly (.set h), edits_misfit, edits_misfit⟩
  | input h => exact ⟨edits_misfit, edits_misfit, edits_plainly (.set h), edits_misfit⟩
  | output h => exact ⟨edits_misfit, edits_misfit, edits_misfit, edits_plainly (.set h)⟩

/-- An added child holds the value that is added. -/
theorem makes_add {child : Item} {v : PlainItem} (h : child.Holds v) :
    (add child).Makes Eq (Alteration.add v) := by
  cases h with
  | block h => exact ⟨edits_misfit, edits_misfit, edits_misfit, edits_misfit⟩
  | transaction h =>
    exact ⟨edits_plainly (Block.edits_addTransaction h), edits_misfit, edits_misfit, edits_misfit⟩
  | input h =>
    refine ⟨edits_misfit, ?_, edits_misfit, edits_misfit⟩
    exact edits_plainly (Node.edits_edit (TxFields.edits_onInputs (edits_append h)))
  | output h =>
    refine ⟨edits_misfit, ?_, edits_misfit, edits_misfit⟩
    exact edits_plainly (Node.edits_edit (TxFields.edits_onOutputs (edits_append h)))

/-- A removed child holds the value that is removed at the same index. -/
theorem makes_remove (children : Children) (index : Nat) :
    (remove children index).Makes (Option.Rel Item.Holds) (Alteration.remove children index) := by
  have hnone {σ V : Type} [Holder σ V] : Edits (return none : Access σ (Option Item))
      (Option.Rel Item.Holds) (Change.ask fun _ : V ↦ .ok none) := (Looks.pure .none).edits
  cases children with
  | transactions =>
    refine ⟨?_, hnone, hnone, hnone⟩
    exact (Block.edits_editBody (BodyFields.edits_onTransactions (edits_detach index))).answer
      fun _ _ h ↦ .some (.transaction h)
  | inputs =>
    refine ⟨hnone, ?_, hnone, hnone⟩
    exact (Node.edits_edit (TxFields.edits_onInputs (edits_detach index))).answer
      fun _ _ h ↦ .some (.input h)
  | outputs =>
    refine ⟨hnone, ?_, hnone, hnone⟩
    exact (Node.edits_edit (TxFields.edits_onOutputs (edits_detach index))).answer
      fun _ _ h ↦ .some (.output h)

/-- A list that is cleared is cleared in the value. -/
theorem makes_clear (children : Children) :
    (clear children).Makes Eq (Alteration.clear children) := by
  cases children with
  | transactions => exact ⟨edits_misfit, edits_misfit, edits_misfit, edits_misfit⟩
  | inputs =>
    refine ⟨edits_misfit, ?_, edits_misfit, edits_misfit⟩
    exact edits_plainly (Node.edits_edit (TxFields.edits_onInputs (Edits.set .nil)))
  | outputs =>
    refine ⟨edits_misfit, ?_, edits_misfit, edits_misfit⟩
    exact edits_plainly (Node.edits_edit (TxFields.edits_onOutputs (Edits.set .nil)))

end Visit

/-! ## Sources -/

/-- Reads that agree make an item and the plain item that it holds, or neither. -/
theorem Read.Agrees.item [Holder σ V] {read : Read σ} {read' : Read V}
    (h : Agrees read read' Holds) {wrap : σ → Item} {wrapPlain : V → PlainItem}
    (hwrap : ∀ {s v}, Holds s v → (wrap s).Holds (wrapPlain v)) (bytes : Bytes) :
    (∃ item v, wrap <$> read.answer (Reader.ofBytes bytes) = .ok item ∧
        wrapPlain <$> read'.answer (Reader.ofBytes bytes) = .ok v ∧ item.Holds v) ∨
      ∃ e e', wrap <$> read.answer (Reader.ofBytes bytes) = .error e ∧
        wrapPlain <$> read'.answer (Reader.ofBytes bytes) = .error e' ∧ e.kind = e'.kind := by
  obtain ⟨s, v, hs, hv, hholds⟩ | ⟨e, e', he, he', hkind⟩ := h.answer (Reader.ofBytes bytes)
  · rw [hs, hv]
    exact .inl ⟨wrap s, wrapPlain v, rfl, rfl, hwrap hholds⟩
  · rw [he, he']
    exact .inr ⟨e, e', rfl, rfl, hkind⟩

/-- The value read under any configuration holds the one read in full. Where one read fails, so does
the other, and only the numbers of an underrun may differ. -/
theorem Source.make_agrees (source : Source) :
    (∃ item v, source.make = .ok item ∧ source.makePlain = .ok v ∧ item.Holds v) ∨
      ∃ e e', source.make = .error e ∧ source.makePlain = .error e' ∧ e.kind = e'.kind := by
  cases source with
  | block bytes config => exact (Block.read_agrees config).item .block bytes
  | header bytes config =>
    dsimp only [Source.make, Source.makePlain, Block.ofHeaderBytes, Node.ofBytes]
    obtain ⟨header, v, hheader, hv, hholds, -⟩ | ⟨e, e', he, he', hkind⟩ :=
      (Node.read_agrees (F := Header) config).answer (Reader.ofBytes bytes)
    · have hblock : Block.Holds ⟨header, none, none⟩ ⟨v, none⟩ :=
        ⟨hholds, .none, by rintro _ ⟨⟩⟩
      change Header.read.answer (Reader.ofBytes bytes) = .ok v at hv
      rw [hheader, hv]
      exact .inl ⟨_, _, rfl, rfl, .block hblock⟩
    · change Header.read.answer (Reader.ofBytes bytes) = .error e' at he'
      rw [he, he']
      exact .inr ⟨e, e', rfl, rfl, hkind⟩
  | blockAt bytes offset config =>
    have hskip := (Agrees.refl (Read.skip offset)).bind fun _ _ _ ↦ Block.read_agrees config
    exact hskip.item .block bytes
  | transaction bytes config =>
    exact ((Node.read_agrees config).mono fun _ _ ↦ And.left).item .transaction bytes
  | input bytes config =>
    exact ((Node.read_agrees config).mono fun _ _ ↦ And.left).item .input bytes
  | output bytes config =>
    exact ((Node.read_agrees config).mono fun _ _ ↦ And.left).item .output bytes
  | newBlock fields => exact .inl ⟨_, _, rfl, rfl, .block (Block.holds_new fields)⟩
  | newTransaction time =>
    have hfields : TxFields.Holds ⟨Transaction.currentVersion, time, [], [], 0⟩
        ⟨Transaction.currentVersion, time, [], [], 0⟩ := ⟨rfl, rfl, .nil, .nil, rfl⟩
    exact .inl ⟨_, _, rfl, rfl, .transaction (Node.holds_ofFields hfields _)⟩
  | newInput outPoint script => exact .inl ⟨_, _, rfl, rfl, .input (Node.holds_ofFields rfl _)⟩
  | newCoinbase script => exact .inl ⟨_, _, rfl, rfl, .input (Node.holds_ofFields rfl _)⟩
  | newOutput value script => exact .inl ⟨_, _, rfl, rfl, .output (Node.holds_ofFields rfl _)⟩

end CoinWire
