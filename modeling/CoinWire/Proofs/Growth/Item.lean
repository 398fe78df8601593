import Mathlib
import CoinWire.Proofs.Growth
import CoinWire.Proofs.Holding.Item

/-!
# Growth of trees

What grows in a tree are the fields of its nodes and, through them, the nodes below. All that is
asked of a block, a transaction, an input or an output through a shared reference lets it grow, and
so does a look at any place in it.
-/

namespace CoinWire

variable {α : Type}

/-! ## What grows -/

instance : Grown Header := Grown.ofEq Header

instance : Grown TxIn := Grown.ofEq TxIn

instance : Grown TxOut := Grown.ofEq TxOut

/-- What is no list of children stays, and the children grow. -/
structure TxFields.Grows (sparing : Bool) (fields fields' : TxFields) : Prop where
  version : fields'.version = fields.version
  time : fields'.time = fields.time
  lockTime : fields'.lockTime = fields.lockTime
  inputs : Grown.Grows sparing fields.inputs fields'.inputs
  outputs : Grown.Grows sparing fields.outputs fields'.outputs

instance : Grown TxFields where
  Grows := TxFields.Grows
  refl sparing _ := ⟨rfl, rfl, rfl, Grown.refl sparing _, Grown.refl sparing _⟩
  trans h h' := ⟨h'.version.trans h.version, h'.time.trans h.time, h'.lockTime.trans h.lockTime,
    Grown.trans h.inputs h'.inputs, Grown.trans h.outputs h'.outputs⟩
  weaken h := ⟨h.version, h.time, h.lockTime, Grown.weaken h.inputs, Grown.weaken h.outputs⟩

/-- The signature stays, and the transactions grow. -/
structure BodyFields.Grows (sparing : Bool) (fields fields' : BodyFields) : Prop where
  transactions : Grown.Grows sparing fields.transactions fields'.transactions
  signature : fields'.signature = fields.signature

instance : Grown BodyFields where
  Grows := BodyFields.Grows
  refl sparing _ := ⟨Grown.refl sparing _, rfl⟩
  trans h h' := ⟨Grown.trans h.transactions h'.transactions, h'.signature.trans h.signature⟩
  weaken h := ⟨Grown.weaken h.transactions, h.signature⟩

/-- Both parts grow. A body neither comes nor goes, and neither do the bytes of the whole. -/
structure Block.Grows (sparing : Bool) (block block' : Block) : Prop where
  header : Grown.Grows sparing block.header block'.header
  body : Option.Rel (Grown.Grows sparing) block.body block'.body
  raw : block'.raw = block.raw

instance : Grown Block where
  Grows := Block.Grows
  refl sparing block := by
    refine ⟨Grown.refl sparing _, ?_, rfl⟩
    cases block.body with
    | none => exact .none
    | some body => exact .some (Grown.refl sparing body)
  trans {_ block block' block''} h h' := by
    refine ⟨Grown.trans h.header h'.header, ?_, h'.raw.trans h.raw⟩
    have hbody := h.body
    have hbody' := h'.body
    revert hbody hbody'
    generalize block.body = body, block'.body = body', block''.body = body''
    rintro (hfirst | _) (hsecond | _)
    · exact .some (Grown.trans hfirst hsecond)
    · exact .none
  weaken {block block' _} h := by
    refine ⟨Grown.weaken h.header, ?_, h.raw⟩
    have hbody := h.body
    revert hbody
    generalize block.body = body, block'.body = body'
    rintro (hgrows | _)
    · exact .some (Grown.weaken hgrows)
    · exact .none

/-- The items are of one kind, and the second is the first with more of it parsed. -/
inductive Item.Grows (sparing : Bool) : Item → Item → Prop where
  | block {block block' : Block} (h : Grown.Grows sparing block block') :
    Grows sparing (.block block) (.block block')
  | transaction {transaction transaction' : Transaction}
    (h : Grown.Grows sparing transaction transaction') :
    Grows sparing (.transaction transaction) (.transaction transaction')
  | input {input input' : Input} (h : Grown.Grows sparing input input') :
    Grows sparing (.input input) (.input input')
  | output {output output' : Output} (h : Grown.Grows sparing output output') :
    Grows sparing (.output output) (.output output')

theorem Item.Grows.refl (sparing : Bool) (item : Item) : item.Grows sparing item := by
  cases item with
  | block value => exact .block (Grown.refl sparing value)
  | transaction value => exact .transaction (Grown.refl sparing value)
  | input value => exact .input (Grown.refl sparing value)
  | output value => exact .output (Grown.refl sparing value)

/-! ## Fields -/

/-- Fields without children stay as they are. -/
theorem GrownLayout.ofPlain (F : Type) [Layout F] [DecidableEq F] [Grown F]
    (hencode : ∃ wire : F → Bytes, (Layout.encode : Access F Bytes) = do return wire (← get))
    (hcompare : (Layout.compare : F → F → Compared F) = Compared.plain) : GrownLayout F where
  grows_encode := by
    obtain ⟨wire, hwire⟩ := hencode
    rw [hwire]
    exact Access.Grows.get.answer wire
  grows_compare left right := by
    rw [hcompare]
    exact ⟨Grown.refl false left, Grown.refl false right⟩

instance : GrownLayout Header := .ofPlain Header ⟨Header.wire, rfl⟩ rfl

instance : GrownLayout TxIn := .ofPlain TxIn ⟨TxIn.wire, rfl⟩ rfl

instance : GrownLayout TxOut := .ofPlain TxOut ⟨TxOut.wire, rfl⟩ rfl

namespace TxFields

variable {sparing : Bool}

/-- What is done to the inputs alone leaves the rest of the fields. -/
theorem onInputs_grows {access : Access (List Input) α} (h : access.Grows sparing) :
    (TxFields.onInputs access).Grows sparing :=
  h.focus fun _ _ hinputs ↦ ⟨rfl, rfl, rfl, hinputs, Grown.refl sparing _⟩

theorem onOutputs_grows {access : Access (List Output) α} (h : access.Grows sparing) :
    (TxFields.onOutputs access).Grows sparing :=
  h.focus fun _ _ houtputs ↦ ⟨rfl, rfl, rfl, Grown.refl sparing _, houtputs⟩

/-- Inputs are looked at only where the numbers are equal, and outputs only where the inputs are
too. -/
theorem compare_grows (left right : TxFields) :
    Grown.Grows false left (TxFields.compare left right).left ∧
      Grown.Grows false right (TxFields.compare left right).right := by
  obtain ⟨hinputs, hinputs'⟩ := Compared.lists_grows Node.compare_grows left.inputs right.inputs
  obtain ⟨houtputs, houtputs'⟩ :=
    Compared.lists_grows Node.compare_grows left.outputs right.outputs
  unfold TxFields.compare
  dsimp only
  split_ifs
  · exact ⟨⟨rfl, rfl, rfl, hinputs, houtputs⟩, ⟨rfl, rfl, rfl, hinputs', houtputs'⟩⟩
  · exact ⟨⟨rfl, rfl, rfl, hinputs, Grown.refl false _⟩,
      ⟨rfl, rfl, rfl, hinputs', Grown.refl false _⟩⟩
  · exact ⟨Grown.refl false _, Grown.refl false _⟩

instance : GrownLayout TxFields where
  grows_encode := (onInputs_grows Node.bytes_grows.each).bind fun _ ↦
    (onOutputs_grows Node.bytes_grows.each).bind fun _ ↦ Access.Grows.get.answer _
  grows_compare := compare_grows

end TxFields

namespace BodyFields

theorem onTransactions_grows {sparing : Bool} {access : Access (List Transaction) α}
    (h : access.Grows sparing) : (BodyFields.onTransactions access).Grows sparing :=
  h.focus fun _ _ htransactions ↦ ⟨htransactions, rfl⟩

theorem compare_grows (left right : BodyFields) :
    Grown.Grows false left (BodyFields.compare left right).left ∧
      Grown.Grows false right (BodyFields.compare left right).right := by
  obtain ⟨htransactions, htransactions'⟩ :=
    Compared.lists_grows Node.compare_grows left.transactions right.transactions
  exact ⟨⟨htransactions, rfl⟩, ⟨htransactions', rfl⟩⟩

instance : GrownLayout BodyFields where
  grows_encode := (onTransactions_grows Node.bytes_grows.each).bind fun _ ↦
    Access.Grows.get.answer _
  grows_compare := compare_grows

end BodyFields

/-! ## Inputs, outputs and transactions -/

/-- A question to a script parses the output, also where it fails. -/
theorem Output.ask_grows (question : Bytes → Bool) : (Output.ask question).Grows false := by
  intro output
  have hscript : Grown.Grows false output (Output.script.after output) :=
    Node.fields_grows.answer TxOut.script output
  unfold Access.after at hscript ⊢
  unfold Output.ask
  cases houtput : Output.script output with
  | ok script output' =>
    rw [houtput] at hscript
    exact hscript
  | error e output' =>
    rw [houtput] at hscript
    exact hscript

/-- The second question is asked only where the first was denied. -/
theorem Output.isMineOrWatched_grows (wallet : Script.Wallet) :
    (Output.isMineOrWatched wallet).Grows false := by
  refine (Output.ask_grows wallet.owns).bind ?_
  intro mine
  split_ifs
  · exact .pure true
  · exact Output.ask_grows wallet.watches

namespace Transaction

/-- Only where there is one input is it looked at. -/
theorem isCoinbase_grows : Transaction.isCoinbase.Grows false := by
  refine (Node.fields_grows.answer _).bind ?_
  intro count
  split_ifs
  · have heach : (Access.each Input.isCoinbase).Grows false :=
      ((Node.fields_grows.answer _).answer _).each
    exact (Node.look_grows (TxFields.onInputs_grows heach)).answer _
  · exact .pure false

/-- All outputs are parsed to add up what they pay. -/
theorem outputValue_grows : Transaction.outputValue.Grows false :=
  (Node.look_grows (TxFields.onOutputs_grows (Node.fields_grows.answer _).each)).answer _

/-- The fields of a transaction are asked for with those of all its children. -/
theorem contents_grows : Transaction.contents.Grows false :=
  Node.look_grows ((TxFields.onInputs_grows Node.fields_grows.each).bind fun _ ↦
    (TxFields.onOutputs_grows Node.fields_grows.each).bind fun _ ↦ Access.Grows.get.answer _)

/-- A report asks for the contents, the hash and the sum of the outputs one after the other. -/
theorem report_grows : Transaction.report.Grows false :=
  contents_grows.bind fun _ ↦ Node.hash_grows.weaken.bind fun _ ↦
    isCoinbase_grows.bind fun _ ↦ outputValue_grows.answer _

end Transaction

/-! ## Blocks -/

namespace Block

variable {sparing : Bool}

/-- What is done to the header leaves the body. -/
theorem onHeader_grows {access : Access (Node Header) α} (h : access.Grows sparing) :
    (Block.onHeader access).Grows sparing :=
  h.focus fun block _ hheader ↦ ⟨hheader, (Grown.refl sparing block).body, rfl⟩

/-- What is done to the body leaves the header, and a block without body as it is. -/
theorem after_onBody (access : Access (Node BodyFields) α) (block : Block) :
    (Block.onBody access).after block =
      match block.body with
      | none => block
      | some body => { block with body := some (access.after body) } := by
  unfold Access.after Block.onBody
  cases block.body with
  | none => rfl
  | some body =>
    dsimp only
    cases access body <;> rfl

theorem onBody_grows {access : Access (Node BodyFields) α} (h : access.Grows sparing) :
    (Block.onBody access).Grows sparing := by
  intro block
  rw [after_onBody]
  obtain ⟨header, body, raw⟩ := block
  cases body with
  | none => exact Grown.refl sparing _
  | some body => exact ⟨Grown.refl sparing header, .some (h body), rfl⟩

theorem onBody?_grows {access : Access (Node BodyFields) α} (h : access.Grows sparing) :
    (Block.onBody? access).Grows sparing := by
  refine Access.Grows.get.bind ?_
  intro block
  split_ifs
  · exact .pure none
  · exact (onBody_grows h).map some

/-- The body is parsed before its transactions are looked at. -/
theorem lookTransactions_grows {access : Access (List Transaction) α} (h : access.Grows false) :
    (Block.lookTransactions access).Grows false :=
  onBody_grows (Node.look_grows (BodyFields.onTransactions_grows h))

theorem headerFields_grows : Block.headerFields.Grows false :=
  onHeader_grows Node.fields_grows

/-- The hash is that of the header, which is encoded and not parsed. -/
theorem hash_grows : Block.hash.Grows true :=
  onHeader_grows Node.hash_grows

/-- Both parts are encoded, and neither is parsed where its bytes can be copied. -/
theorem encode_grows : Block.encode.Grows true :=
  (onHeader_grows Node.bytes_grows).bind fun _ ↦ (onBody?_grows Node.bytes_grows).answer _

/-- Where the bytes of the whole are there, they are copied and nothing is looked at. -/
theorem bytes_grows : Block.bytes.Grows true := by
  intro block
  unfold Access.after
  rw [bytes_apply]
  cases block.raw with
  | some raw => exact Grown.refl true block
  | none => exact encode_grows block

theorem transactionCount_grows : Block.transactionCount.Grows false :=
  lookTransactions_grows (Access.Grows.get.answer List.length)

theorem signature_grows : Block.signature.Grows false :=
  onBody_grows (Node.fields_grows.answer BodyFields.signature)

/-- The root is made of the hashes of all transactions, each kept in its transaction. -/
theorem computeMerkleRoot_grows : Block.computeMerkleRoot.Grows false :=
  (lookTransactions_grows Node.hash_grows.weaken.each).answer Hash.merkleRoot

/-- Header and body are parsed, and nothing below them. -/
theorem ensureParsed_grows : Block.ensureParsed.Grows false :=
  (onHeader_grows Node.fields_grows).discard.bind fun _ ↦ (onBody?_grows Node.fields_grows).discard

theorem report_grows : Block.report.Grows false :=
  headerFields_grows.bind fun _ ↦ hash_grows.weaken.bind fun _ ↦
    (onBody?_grows (Node.look_grows ((BodyFields.onTransactions_grows
      Transaction.report_grows.each).bind fun _ ↦ Access.Grows.get.answer _))).answer _

/-- Bodies are compared only where the headers are equal and both blocks have one. -/
theorem compare_grows (left right : Block) :
    Grown.Grows false left (Block.compare left right).left ∧
      Grown.Grows false right (Block.compare left right).right := by
  obtain ⟨header, body, raw⟩ := left
  obtain ⟨header', body', raw'⟩ := right
  obtain ⟨hheader, hheader'⟩ := Node.compare_grows header header'
  have hsame (header : Node Header) (body : Option (Node BodyFields)) (raw : Option Bytes) :
      Option.Rel (Grown.Grows false) body body :=
    (Grown.refl false (⟨header, body, raw⟩ : Block)).body
  unfold Block.compare
  dsimp only
  split_ifs
  · cases body with
    | none =>
      cases body' with
      | none => exact ⟨⟨hheader, .none, rfl⟩, ⟨hheader', .none, rfl⟩⟩
      | some b => exact ⟨⟨hheader, .none, rfl⟩, ⟨hheader', .some (Grown.refl false b), rfl⟩⟩
    | some a =>
      cases body' with
      | none => exact ⟨⟨hheader, .some (Grown.refl false a), rfl⟩, ⟨hheader', .none, rfl⟩⟩
      | some b =>
        obtain ⟨hbody, hbody'⟩ := Node.compare_grows a b
        exact ⟨⟨hheader, .some hbody, rfl⟩, ⟨hheader', .some hbody', rfl⟩⟩
  · exact ⟨⟨hheader, hsame header body raw, rfl⟩, ⟨hheader', hsame header' body' raw', rfl⟩⟩

end Block

/-! ## Visits -/

namespace Visit

/-- Every look of the visit lets its state grow. -/
structure Grows (sparing : Bool) (visit : Visit α) : Prop where
  block : visit.block.Grows sparing
  transaction : visit.transaction.Grows sparing
  input : visit.input.Grows sparing
  output : visit.output.Grows sparing

variable {sparing : Bool} {visit : Visit α}

/-- A visit that spares what is cached lets its state grow. -/
theorem Grows.weaken (h : visit.Grows true) : visit.Grows sparing :=
  ⟨h.block.weaken, h.transaction.weaken, h.input.weaken, h.output.weaken⟩

/-- To find an item parses nothing in it. -/
theorem grows_found : found.Grows true where
  block := Access.Grows.get.map Item.block
  transaction := Access.Grows.get.map Item.transaction
  input := Access.Grows.get.map Item.input
  output := Access.Grows.get.map Item.output

/-- The length is known from the bytes, or from the fields that are there. -/
theorem grows_length : length.Grows true where
  block := Access.Grows.get.map Block.length
  transaction := Access.Grows.get.map Node.length
  input := Access.Grows.get.map Node.length
  output := Access.Grows.get.map Node.length

theorem grows_ensureParsed : ensureParsed.Grows false where
  block := Block.ensureParsed_grows
  transaction := Node.fields_grows.discard
  input := Node.fields_grows.discard
  output := Node.fields_grows.discard

/-- Encodings spare what is cached. -/
theorem grows_bytes : bytes.Grows true where
  block := Block.bytes_grows
  transaction := Node.bytes_grows
  input := Node.bytes_grows
  output := Node.bytes_grows

theorem grows_report : report.Grows false where
  block := Block.report_grows.answer _
  transaction := Transaction.report_grows.answer _
  input := Node.fields_grows.answer _
  output := Node.fields_grows.answer _

/-- Every field of a block is had by looks at its header or its body. -/
theorem getBlock_grows (field : Field) : (getBlock field).Grows false := by
  cases field with
  | version | prev | merkleRoot | time | bits | nonce | header =>
    exact Block.headerFields_grows.answer _
  | hash => exact Block.hash_grows.weaken.answer Answer.hash
  | transactionCount => exact Block.transactionCount_grows.answer Answer.number
  | signature => exact Block.signature_grows.answer Answer.bytes
  | computedMerkleRoot => exact Block.computeMerkleRoot_grows.answer Answer.hash
  | _ => exact .pure Answer.misfit

/-- Every field of a transaction is had by looks at it, at most through its children. -/
theorem getTransaction_grows (field : Field) : (getTransaction field).Grows false := by
  cases field with
  | version | time | lockTime => exact (Node.fields_grows.answer _).answer word
  | inputCount | outputCount => exact (Node.fields_grows.answer _).answer Answer.number
  | hash => exact Node.hash_grows.weaken.answer Answer.hash
  | coinbase => exact Transaction.isCoinbase_grows.answer Answer.flag
  | outputValue => exact Transaction.outputValue_grows.answer Answer.amount
  | _ => exact .pure Answer.misfit

theorem getInput_grows (field : Field) : (getInput field).Grows false := by
  cases field with
  | outPoint => exact (Node.fields_grows.answer _).answer Answer.outPoint
  | scriptSig => exact (Node.fields_grows.answer _).answer Answer.bytes
  | sequence => exact (Node.fields_grows.answer _).answer word
  | hasSequence | coinbase => exact ((Node.fields_grows.answer _).answer _).answer Answer.flag
  | _ => exact .pure Answer.misfit

theorem getOutput_grows (field : Field) : (getOutput field).Grows false := by
  cases field with
  | value => exact (Node.fields_grows.answer _).answer Answer.amount
  | scriptPubkey => exact (Node.fields_grows.answer _).answer Answer.bytes
  | _ => exact .pure Answer.misfit

/-- Whichever field is asked for, and of whatever kind of value. -/
theorem grows_get (field : Field) : (get field).Grows false where
  block := getBlock_grows field
  transaction := getTransaction_grows field
  input := getInput_grows field
  output := getOutput_grows field

/-- Hashes are made of encodings, so they spare what is cached. An input or an output has none. -/
theorem grows_hash : (get .hash).Grows true where
  block := Block.hash_grows.answer Answer.hash
  transaction := Node.hash_grows.answer Answer.hash
  input := .pure Answer.misfit
  output := .pure Answer.misfit

theorem comparing_grows {σ : Type} [Grown σ] {compare : σ → σ → Compared σ}
    (h : ∀ left right, Grown.Grows false left (compare left right).left ∧
      Grown.Grows false right (compare left right).right) (other : σ) :
    (comparing compare other).Grows false :=
  fun state ↦ (h state other).1

/-- A comparison parses the value at hand, and one of another kind is left alone. -/
theorem grows_against (item : Item) : (against item).Grows false := by
  cases item with
  | block => exact ⟨comparing_grows Block.compare_grows _, .pure _, .pure _, .pure _⟩
  | transaction => exact ⟨.pure _, comparing_grows Node.compare_grows _, .pure _, .pure _⟩
  | input => exact ⟨.pure _, .pure _, comparing_grows Node.compare_grows _, .pure _⟩
  | output => exact ⟨.pure _, .pure _, .pure _, comparing_grows Node.compare_grows _⟩

theorem grows_ownership (wallet : Script.Wallet) : (ownership wallet).Grows false where
  block := .pure Answer.misfit
  transaction := .pure Answer.misfit
  input := .pure Answer.misfit
  output := (Output.ask_grows wallet.owns).bind fun _ ↦
    (Output.ask_grows wallet.watches).bind fun _ ↦
      (Output.isMineOrWatched_grows wallet).answer _

/-! ### Items and places -/

/-- A visit leaves of an item what it leaves of the value in it. -/
theorem after_onItem (visit : Visit α) (item : Item) :
    visit.onItem.after item =
      match item with
      | .block value => .block (visit.block.after value)
      | .transaction value => .transaction (visit.transaction.after value)
      | .input value => .input (visit.input.after value)
      | .output value => .output (visit.output.after value) := by
  cases item <;> exact Access.after_mapState rfl

/-- A look leaves of an item what it leaves of the value in it, on the way as at the place. -/
theorem after_look? (visit : Visit α) (place : Place) (item : Item) :
    (visit.look? place).after item =
      match item with
      | .block value => .block ((visit.lookBlock? place).after value)
      | .transaction value => .transaction ((visit.lookTransaction? place).after value)
      | .input value => .input (visit.input.after value)
      | .output value => .output (visit.output.after value) := by
  cases item with
  | block | transaction => exact Access.after_mapState rfl
  | input value =>
    dsimp only
    rw [← Access.after_map some visit.input]
    exact Access.after_mapState rfl
  | output value =>
    dsimp only
    rw [← Access.after_map some visit.output]
    exact Access.after_mapState rfl

/-- A visit lets the item grow that it is made to. -/
theorem Grows.onItem (h : visit.Grows sparing) (item : Item) :
    Item.Grows sparing item (visit.onItem.after item) := by
  rw [after_onItem]
  cases item with
  | block value => exact .block (h.block value)
  | transaction value => exact .transaction (h.transaction value)
  | input value => exact .input (h.input value)
  | output value => exact .output (h.output value)

/-- The transaction is parsed on the way to its child, and the child grows. -/
theorem Grows.lookTransaction? (h : visit.Grows false) (place : Place) :
    (visit.lookTransaction? place).Grows false := by
  unfold Visit.lookTransaction?
  cases place.input with
  | some index => exact Node.look_grows (TxFields.onInputs_grows (h.input.at? index))
  | none =>
    cases place.output with
    | some index => exact Node.look_grows (TxFields.onOutputs_grows (h.output.at? index))
    | none => exact h.transaction.map some

/-- The body is parsed on the way to a transaction of the block. -/
theorem Grows.lookBlock? (h : visit.Grows false) (place : Place) :
    (visit.lookBlock? place).Grows false := by
  unfold Visit.lookBlock?
  cases place.transaction with
  | some index =>
    exact (Block.lookTransactions_grows ((h.lookTransaction? place).at? index)).answer Option.join
  | none => exact h.block.map some

/-- A look at a place lets the whole tree grow. -/
theorem Grows.look? (h : visit.Grows false) (place : Place) (item : Item) :
    Item.Grows false item ((visit.look? place).after item) := by
  rw [after_look?]
  cases item with
  | block value => exact .block (h.lookBlock? place value)
  | transaction value => exact .transaction (h.lookTransaction? place value)
  | input value => exact .input (h.input value)
  | output value => exact .output (h.output value)

end Visit

end CoinWire
