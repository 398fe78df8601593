import Mathlib
import CoinWire.Proofs.Exchange
import CoinWire.Proofs.Orderly

/-!
# Reachable trees are in order

Sources and parsers make trees in order, and every visit of a tree keeps it so. By induction on the
run, on what was written and on what was compared, every tree that a program can come to have is in
order.
-/

namespace CoinWire

open Ordered (Orderly)

variable {α : Type}

/-! ## Fields -/

/-- Fields without children have nothing to be put in order. -/
abbrev Ordered.ofPlain (F : Type) [Grown F] : Ordered F where
  Orderly _ := True
  grows _ := id

instance : Ordered Header := .ofPlain Header

instance : Ordered TxIn := .ofPlain TxIn

instance : Ordered TxOut := .ofPlain TxOut

instance : OrderedLayout Header := ⟨fun _ ↦ .any _, fun _ _ ↦ id⟩

instance : OrderedLayout TxIn := ⟨fun _ ↦ .any _, fun _ _ ↦ id⟩

instance : OrderedLayout TxOut := ⟨fun _ ↦ .any _, fun _ _ ↦ id⟩

namespace TxFields

/-- Every input and every output of the transaction is in order. -/
structure Orderly (fields : TxFields) : Prop where
  inputs : Ordered.Orderly fields.inputs
  outputs : Ordered.Orderly fields.outputs

instance : Ordered TxFields where
  Orderly := Orderly
  grows h hfields :=
    ⟨Ordered.grows h.inputs hfields.inputs, Ordered.grows h.outputs hfields.outputs⟩

/-- What keeps a list of inputs in order keeps the fields that hold it in order. -/
theorem keeps_onInputs {access : Access (List Input) α} {P : α → Prop}
    (h : Keeps Ordered.Orderly access P) : Keeps Ordered.Orderly (TxFields.onInputs access) P :=
  h.focus (fun _ hfields ↦ hfields.inputs) fun _ _ hfields hinputs ↦ ⟨hinputs, hfields.outputs⟩

/-- What keeps a list of outputs in order keeps the fields that hold it in order. -/
theorem keeps_onOutputs {access : Access (List Output) α} {P : α → Prop}
    (h : Keeps Ordered.Orderly access P) : Keeps Ordered.Orderly (TxFields.onOutputs access) P :=
  h.focus (fun _ hfields ↦ hfields.outputs) fun _ _ hfields houtputs ↦ ⟨hfields.inputs, houtputs⟩

/-- Inputs and outputs are read under the configuration of their transaction. -/
theorem yields_parse (config : ParseConfig) :
    (Layout.parse config : Read TxFields).Yields fun fields ↦
      (∀ input ∈ fields.inputs, input.ReadUnder config) ∧
        ∀ output ∈ fields.outputs, output.ReadUnder config :=
  (Read.Yields.any _).bind fun _ _ ↦ (Read.Yields.any _).bind fun _ _ ↦
    ((Node.yields_read config).counted _ _).bind fun _ hinputs ↦
      ((Node.yields_read config).counted _ _).bind fun _ houtputs ↦
        (Read.Yields.any _).bind fun _ _ ↦ .pure ⟨hinputs, houtputs⟩

instance : OrderedLayout TxFields where
  yields_parse config := (yields_parse config).mono fun _ h ↦
    ⟨fun input hinput ↦ (h.1 input hinput).orderly.1,
      fun output houtput ↦ (h.2 output houtput).orderly.1⟩
  orderly_adopt _ _ h := ⟨Node.orderly_adoptEach _ h.inputs, Node.orderly_adoptEach _ h.outputs⟩

end TxFields

namespace BodyFields

instance : Ordered BodyFields where
  Orderly fields := Ordered.Orderly fields.transactions
  grows h := Ordered.grows h.transactions

/-- What keeps a list of transactions in order keeps the body that holds it in order. -/
theorem keeps_onTransactions {access : Access (List Transaction) α} {P : α → Prop}
    (h : Keeps Ordered.Orderly access P) :
    Keeps Ordered.Orderly (BodyFields.onTransactions access) P :=
  h.focus (fun _ ↦ id) fun _ _ _ ↦ id

/-- Transactions are read under the configuration of their body. -/
theorem yields_parse (config : ParseConfig) :
    (Layout.parse config : Read BodyFields).Yields fun fields ↦
      ∀ transaction ∈ fields.transactions, transaction.ReadUnder config :=
  ((Node.yields_read config).counted _ _).bind fun _ htransactions ↦
    (Read.Yields.any _).bind fun _ _ ↦ .pure htransactions

instance : OrderedLayout BodyFields where
  yields_parse config := (yields_parse config).mono fun _ h transaction htransaction ↦
    (h transaction htransaction).orderly.1
  orderly_adopt _ _ h := Node.orderly_adoptEach _ h

end BodyFields

/-! ## Blocks -/

namespace Block

variable {config : ParseConfig} {block : Block} {P : α → Prop}

/-- Header and body are in order, and both are under the configuration. -/
structure OrderlyUnder (config : ParseConfig) (block : Block) : Prop where
  header : block.header.OrderlyUnder config
  body : ∀ body, block.body = some body → body.OrderlyUnder config

/-- Both parts are under the header's configuration. -/
def Orderly (block : Block) : Prop :=
  block.OrderlyUnder block.header.config

theorem OrderlyUnder.config_eq (h : block.OrderlyUnder config) : block.header.config = config :=
  h.header.2

/-- A block whose parts are under one configuration is in order. -/
theorem OrderlyUnder.orderly (h : block.OrderlyUnder config) : block.Orderly := by
  rwa [Orderly, h.config_eq]

/-- What keeps every configuration keeps the order. -/
theorem keeps_orderly {access : Access Block α}
    (h : ∀ config, Keeps (OrderlyUnder config) access P) : Keeps Orderly access P :=
  fun block hblock ↦
    (h block.header.config block hblock).mono (fun _ ↦ OrderlyUnder.orderly) fun _ ↦ id

instance : Ordered Block where
  Orderly := Orderly
  grows {block block'} h horderly := by
    have hgrows : block.Grows false block' := h
    have hheader : Node.Grows false block.header block'.header := hgrows.header
    refine ⟨⟨Ordered.grows hgrows.header horderly.header.1, rfl⟩, ?_⟩
    intro body' hbody'
    obtain ⟨body, hbody, hrel⟩ : ∃ body, block.body = some body ∧
        Grown.Grows false body body' := by
      have hrel := hgrows.body
      rw [hbody'] at hrel
      cases hbody : block.body with
      | none =>
        rw [hbody] at hrel
        contradiction
      | some body =>
        rw [hbody] at hrel
        cases hrel with
        | some hrel => exact ⟨body, rfl, hrel⟩
    have hunder := horderly.body body hbody
    have hbodies : Node.Grows false body body' := hrel
    refine ⟨Ordered.grows hrel hunder.1, ?_⟩
    rw [hbodies.config, hunder.2, hheader.config]

/-- The body is not met by an access of the header. -/
theorem keeps_onHeader {access : Access (Node Header) α}
    (h : Keeps (Node.OrderlyUnder config) access P) :
    Keeps (OrderlyUnder config) (onHeader access) P :=
  h.focus (fun _ hblock ↦ hblock.header) fun _ _ hblock hheader ↦ ⟨hheader, hblock.body⟩

/-- A body may be exchanged for another one under the same configuration. -/
theorem OrderlyUnder.putBody (h : block.OrderlyUnder config) {body : Node BodyFields}
    (hbody : body.OrderlyUnder config) :
    ({ block with body := some body } : Block).OrderlyUnder config :=
  ⟨h.header, fun _ hsome ↦ Option.some.inj hsome ▸ hbody⟩

/-- The header is not met by an access of the body. Where there is no body, nothing is. -/
theorem keeps_onBody {access : Access (Node BodyFields) α}
    (h : Keeps (Node.OrderlyUnder config) access P) :
    Keeps (OrderlyUnder config) (onBody access) P := by
  intro block hblock
  unfold onBody
  cases hbody : block.body with
  | none => exact hblock
  | some body => exact (h body (hblock.body body hbody)).mapState fun _ ↦ hblock.putBody

theorem keeps_onBody? {access : Access (Node BodyFields) α}
    (h : Keeps (Node.OrderlyUnder config) access P) :
    Keeps (OrderlyUnder config) (onBody? access) fun _ ↦ True := by
  apply Keeps.get.bind
  intro block _
  split_ifs
  · exact .pure trivial
  · exact (keeps_onBody h).map fun _ _ ↦ trivial

/-- Parsing the body on the way to its transactions keeps the block in order. -/
theorem keeps_lookTransactions {access : Access (List Transaction) α}
    (h : Keeps Ordered.Orderly access P) : Keeps Orderly (lookTransactions access) P :=
  keeps_orderly fun config ↦
    keeps_onBody (Node.keeps_look (BodyFields.keeps_onTransactions h) config)

/-- The order says nothing about the bytes a block keeps, so they may be dropped. -/
theorem keeps_dropRaw : Keeps (OrderlyUnder config) dropRaw fun _ ↦ True :=
  .modify fun _ hblock ↦ ⟨hblock.header, hblock.body⟩

/-- A header is edited in place, under the configuration it had. -/
theorem keeps_editHeader {access : Access Header α} (h : Keeps Ordered.Orderly access P) :
    Keeps Orderly (editHeader access) P :=
  keeps_orderly fun config ↦ keeps_dropRaw.bind fun _ _ ↦ keeps_onHeader (Node.keeps_edit h config)

theorem keeps_editBody_under {access : Access BodyFields α} (h : Keeps Ordered.Orderly access P) :
    Keeps (OrderlyUnder config) (editBody access) P :=
  keeps_dropRaw.bind fun _ _ ↦ keeps_onBody (Node.keeps_edit h config)

/-- A body is edited in place, under the configuration it had. -/
theorem keeps_editBody {access : Access BodyFields α} (h : Keeps Ordered.Orderly access P) :
    Keeps Orderly (editBody access) P :=
  keeps_orderly fun _ ↦ keeps_editBody_under h

/-- A new body is under the header's configuration. -/
theorem OrderlyUnder.withBody (h : block.OrderlyUnder config) :
    block.withBody.OrderlyUnder config := by
  unfold Block.withBody
  split_ifs
  · refine h.putBody ?_
    rw [h.config_eq]
    exact Node.orderly_ofFields (List.forall_mem_nil _) config
  · exact h

/-- A transaction may be added to any block in order, also to one that has no body yet. -/
theorem keeps_addTransaction {transaction : Transaction} (h : Ordered.Orderly transaction) :
    Keeps Orderly (addTransaction transaction) fun _ ↦ True :=
  keeps_orderly fun _ ↦ (Keeps.modify fun _ ↦ OrderlyUnder.withBody).bind fun _ _ ↦
    keeps_editBody_under (BodyFields.keeps_onTransactions (.append h))

theorem keeps_invalidate : Keeps Orderly invalidate fun _ ↦ True := by
  apply keeps_orderly
  intro config
  have hnothing {F : Type} [Grown F] [Ordered F] :
      Keeps Ordered.Orderly (pure () : Access F Unit) fun _ ↦ True := .pure trivial
  exact keeps_dropRaw.bind fun _ _ ↦
    (keeps_onHeader (Node.keeps_edit hnothing config)).bind fun _ _ ↦
      (keeps_onBody? (Node.keeps_edit hnothing config)).discard

/-- Adopted bytes are shared out to header and body, which stay under their configuration. -/
theorem OrderlyUnder.adopt (h : block.OrderlyUnder config) (raw : Bytes) :
    (block.adopt raw).OrderlyUnder config := by
  have hparts : ({ block with
      header := block.header.adoptIfKept (raw.take block.header.length)
      body := block.body.map (Node.adoptIfKept (raw.drop block.header.length)) } :
        Block).OrderlyUnder config := by
    refine ⟨h.header.adoptIfKept _, ?_⟩
    intro body hbody
    obtain ⟨known, hknown, rfl⟩ := Option.map_eq_some_iff.1 hbody
    exact (h.body known hknown).adoptIfKept _
  unfold Block.adopt
  dsimp only
  split_ifs
  · exact ⟨hparts.header, hparts.body⟩
  · exact hparts

/-- Serializing a block keeps it in order, whether or not it answers with bytes. -/
theorem keeps_serialize : Keeps Orderly Block.serialize fun _ ↦ True := by
  apply keeps_orderly
  intro config block hblock
  rw [serialize_apply]
  cases block.raw with
  | some raw => exact ⟨hblock, trivial⟩
  | none =>
    have hencode : Keeps (OrderlyUnder config) encode fun _ ↦ True :=
      (keeps_onHeader (Node.keeps_of_grows Node.bytes_grows.weaken config)).bind fun _ _ ↦
        (keeps_onBody? (Node.keeps_of_grows Node.bytes_grows.weaken config)).answer
          fun _ _ ↦ trivial
    have hkept := hencode block hblock
    dsimp only
    cases hrun : encode block with
    | error e block' =>
      rw [hrun] at hkept
      exact hkept
    | ok raw block' =>
      rw [hrun] at hkept
      exact ⟨hkept.1.adopt raw, trivial⟩

/-- A block that was read has both parts under the configuration it was read with. -/
theorem yields_read (config : ParseConfig) : (Block.read config).Yields Block.Orderly :=
  (Read.Yields.any _).bind fun _ _ ↦ (Node.yields_read config).bind fun _ hheader ↦
    (Node.yields_read config).bind fun _ hbody ↦ (Read.Yields.any _).bind fun _ _ ↦
      .pure (OrderlyUnder.orderly ⟨hheader.orderly, fun _ hsome ↦
        Option.some.inj hsome ▸ hbody.orderly⟩)

/-- A block without its body has nothing left that could be out of order. -/
theorem Orderly.headerOnly (h : block.Orderly) : block.headerOnly.Orderly :=
  ⟨h.header, nofun⟩

end Block

/-! ## Items -/

namespace Item

/-- The tree that the item is the root of is in order. -/
inductive Orderly : Item → Prop where
  | block {block : Block} (h : Ordered.Orderly block) : Orderly (.block block)
  | transaction {transaction : Transaction} (h : Ordered.Orderly transaction) :
    Orderly (.transaction transaction)
  | input {input : Input} (h : Ordered.Orderly input) : Orderly (.input input)
  | output {output : Output} (h : Ordered.Orderly output) : Orderly (.output output)

end Item

namespace Visit

variable {visit : Visit α} {P : α → Prop}

/-- Every access of the visit keeps what it meets in order. -/
structure KeepsOrder (visit : Visit α) (P : α → Prop) : Prop where
  block : Keeps Ordered.Orderly visit.block P
  transaction : Keeps Ordered.Orderly visit.transaction P
  input : Keeps Ordered.Orderly visit.input P
  output : Keeps Ordered.Orderly visit.output P

/-- A visit that only adds to a tree what its bytes say keeps the order. -/
theorem Grows.keepsOrder (h : visit.Grows false) : visit.KeepsOrder fun _ ↦ True :=
  ⟨h.block.keeps, h.transaction.keeps, h.input.keeps, h.output.keeps⟩

/-- An item found in a tree in order is in order itself. -/
theorem keepsOrder_found : found.KeepsOrder Item.Orderly where
  block := Keeps.get.map fun _ ↦ .block
  transaction := Keeps.get.map fun _ ↦ .transaction
  input := Keeps.get.map fun _ ↦ .input
  output := Keeps.get.map fun _ ↦ .output

/-! ### Edits -/

theorem keeps_plainly {σ : Type} {I : σ → Prop} {access : Access σ Unit}
    {P : Unit → Prop} (h : Keeps I access P) : Keeps I (plainly access) fun _ ↦ True :=
  h.bind fun _ _ ↦ .pure trivial

theorem keeps_misfit {σ : Type} {I : σ → Prop} :
    Keeps I (return .misfit : Access σ Answer) fun _ ↦ True :=
  .pure trivial

section Nodes

variable {F : Type} [Layout F] [Grown F] [Ordered F] [OrderedLayout F] {access : Access F α}

/-- Looking at a node's fields parses them first, and parsed fields are in order. -/
theorem keeps_look (h : Keeps Ordered.Orderly access P) :
    Keeps Ordered.Orderly (Node.look access) P :=
  Node.keeps_orderly (Node.keeps_look h)

theorem keeps_edit (h : Keeps Ordered.Orderly access P) :
    Keeps Ordered.Orderly (Node.edit access) P :=
  Node.keeps_orderly (Node.keeps_edit h)

end Nodes

theorem keeps_setHeader (f : Header → Header) :
    Keeps Ordered.Orderly (plainly (Block.editHeader (modify f))) fun _ ↦ True :=
  keeps_plainly (Block.keeps_editHeader (.modify fun _ ↦ id))

theorem keeps_setFields {F : Type} [Layout F] [Grown F] [Ordered F] [OrderedLayout F] {f : F → F}
    (h : ∀ fields, Orderly fields → Orderly (f fields)) :
    Keeps Ordered.Orderly (plainly (Node.edit (modify f))) fun _ ↦ True :=
  keeps_plainly (keeps_edit (.modify h))

/-- A setter writes plain fields only, which have no order to break. -/
theorem keepsOrder_set (assignment : Assignment) :
    (Visit.set assignment).KeepsOrder fun _ ↦ True := by
  cases assignment with
  | version | time =>
    refine ⟨keeps_setHeader _, keeps_setFields ?_, keeps_misfit, keeps_misfit⟩
    exact fun _ h ↦ ⟨h.inputs, h.outputs⟩
  | lockTime =>
    refine ⟨keeps_misfit, keeps_setFields ?_, keeps_misfit, keeps_misfit⟩
    exact fun _ h ↦ ⟨h.inputs, h.outputs⟩
  | bits | nonce | prev | merkleRoot =>
    exact ⟨keeps_setHeader _, keeps_misfit, keeps_misfit, keeps_misfit⟩
  | signature =>
    refine ⟨?_, keeps_misfit, keeps_misfit, keeps_misfit⟩
    exact keeps_plainly (Block.keeps_editBody (.modify fun _ ↦ id))
  | outPoint | scriptSig | sequence =>
    exact ⟨keeps_misfit, keeps_misfit, keeps_setFields fun _ ↦ id, keeps_misfit⟩
  | value | scriptPubkey =>
    exact ⟨keeps_misfit, keeps_misfit, keeps_misfit, keeps_setFields fun _ ↦ id⟩

theorem keepsOrder_headerEdit : headerEdit.KeepsOrder fun _ ↦ True where
  block := (Block.keeps_editHeader Keeps.get).answer fun _ _ ↦ trivial
  transaction := keeps_misfit
  input := keeps_misfit
  output := keeps_misfit

/-- A child in order may be added wherever it fits. Elsewhere the item is as it was. -/
theorem keepsOrder_add {child : Item} (h : child.Orderly) :
    (add child).KeepsOrder fun _ ↦ True := by
  cases h with
  | block => exact ⟨keeps_misfit, keeps_misfit, keeps_misfit, keeps_misfit⟩
  | transaction h =>
    exact ⟨keeps_plainly (Block.keeps_addTransaction h), keeps_misfit, keeps_misfit, keeps_misfit⟩
  | input h =>
    refine ⟨keeps_misfit, ?_, keeps_misfit, keeps_misfit⟩
    exact keeps_plainly (keeps_edit (TxFields.keeps_onInputs (.append h)))
  | output h =>
    refine ⟨keeps_misfit, ?_, keeps_misfit, keeps_misfit⟩
    exact keeps_plainly (keeps_edit (TxFields.keeps_onOutputs (.append h)))

/-- An item may be exchanged for another one in order. -/
theorem keepsOrder_put {item : Item} (h : item.Orderly) : (put item).KeepsOrder fun _ ↦ True := by
  cases h with
  | block h => exact ⟨keeps_plainly (.set h), keeps_misfit, keeps_misfit, keeps_misfit⟩
  | transaction h => exact ⟨keeps_misfit, keeps_plainly (.set h), keeps_misfit, keeps_misfit⟩
  | input h => exact ⟨keeps_misfit, keeps_misfit, keeps_plainly (.set h), keeps_misfit⟩
  | output h => exact ⟨keeps_misfit, keeps_misfit, keeps_misfit, keeps_plainly (.set h)⟩

/-- A removed child is in order, and so is the tree it was taken from. -/
theorem keepsOrder_remove (children : Children) (index : Nat) :
    (remove children index).KeepsOrder fun found ↦ ∀ item, found = some item → item.Orderly := by
  have hnone {σ : Type} {I : σ → Prop} : Keeps I (return none : Access σ (Option Item))
      fun found ↦ ∀ item, found = some item → item.Orderly := by
    refine .pure ?_
    intro item hsome
    contradiction
  cases children with
  | transactions =>
    refine ⟨?_, hnone, hnone, hnone⟩
    exact (Block.keeps_editBody (BodyFields.keeps_onTransactions (.detach index))).answer
      fun _ h _ hsome ↦ Option.some.inj hsome ▸ .transaction h
  | inputs =>
    refine ⟨hnone, ?_, hnone, hnone⟩
    exact (keeps_edit (TxFields.keeps_onInputs (.detach index))).answer
      fun _ h _ hsome ↦ Option.some.inj hsome ▸ .input h
  | outputs =>
    refine ⟨hnone, ?_, hnone, hnone⟩
    exact (keeps_edit (TxFields.keeps_onOutputs (.detach index))).answer
      fun _ h _ hsome ↦ Option.some.inj hsome ▸ .output h

/-- A list without children is in order. -/
theorem keepsOrder_clear (children : Children) : (clear children).KeepsOrder fun _ ↦ True := by
  cases children with
  | transactions => exact ⟨keeps_misfit, keeps_misfit, keeps_misfit, keeps_misfit⟩
  | inputs =>
    refine ⟨keeps_misfit, ?_, keeps_misfit, keeps_misfit⟩
    exact keeps_plainly (keeps_edit (TxFields.keeps_onInputs (.set (List.forall_mem_nil _))))
  | outputs =>
    refine ⟨keeps_misfit, ?_, keeps_misfit, keeps_misfit⟩
    exact keeps_plainly (keeps_edit (TxFields.keeps_onOutputs (.set (List.forall_mem_nil _))))

theorem keepsOrder_invalidate : invalidate.KeepsOrder fun _ ↦ True where
  block := Block.keeps_invalidate
  transaction := keeps_edit (.pure trivial)
  input := keeps_edit (.pure trivial)
  output := keeps_edit (.pure trivial)

theorem keepsOrder_serialize : serialize.KeepsOrder fun _ ↦ True where
  block := Block.keeps_serialize
  transaction := Node.keeps_orderly Node.keeps_serialize
  input := Node.keeps_orderly Node.keeps_serialize
  output := Node.keeps_orderly Node.keeps_serialize

/-! ### Places -/

theorem some_forall {a : α} (h : P a) : ∀ b, some a = some b → P b :=
  fun _ hb ↦ Option.some.inj hb ▸ h

theorem KeepsOrder.lookTransaction? (h : visit.KeepsOrder P) (place : Place) :
    Keeps Ordered.Orderly (visit.lookTransaction? place) fun found ↦
      ∀ a, found = some a → P a := by
  unfold Visit.lookTransaction?
  cases place.input with
  | some index => exact keeps_look (TxFields.keeps_onInputs (h.input.at? index))
  | none =>
    cases place.output with
    | some index => exact keeps_look (TxFields.keeps_onOutputs (h.output.at? index))
    | none => exact h.transaction.map fun _ ha ↦ some_forall ha

/-- A visit that keeps every item in order keeps the block below which it is made, at any place. -/
theorem KeepsOrder.lookBlock? (h : visit.KeepsOrder P) (place : Place) :
    Keeps Ordered.Orderly (visit.lookBlock? place) fun found ↦ ∀ a, found = some a → P a := by
  unfold Visit.lookBlock?
  cases place.transaction with
  | some index =>
    apply (Block.keeps_lookTransactions ((h.lookTransaction? place).at? index)).answer
    intro found hfound a ha
    obtain ⟨inner, hinner, rfl⟩ := Option.join_eq_some_iff.1 ha
    exact hfound _ rfl a rfl
  | none => exact h.block.map fun _ ha ↦ some_forall ha

/-- A visit by shared reference keeps the whole tree in order, at any place. -/
theorem KeepsOrder.look? (h : visit.KeepsOrder P) (place : Place) :
    Keeps Item.Orderly (visit.look? place) fun found ↦ ∀ a, found = some a → P a := by
  rintro _ (hblock | htransaction | hinput | houtput)
  · exact (h.lookBlock? place _ hblock).mapState fun _ ↦ .block
  · exact (h.lookTransaction? place _ htransaction).mapState fun _ ↦ .transaction
  · exact (h.input.map (fun _ ha ↦ some_forall ha) _ hinput).mapState fun _ ↦ .input
  · exact (h.output.map (fun _ ha ↦ some_forall ha) _ houtput).mapState fun _ ↦ .output

theorem KeepsOrder.onItem (h : visit.KeepsOrder P) : Keeps Item.Orderly visit.onItem P := by
  rintro _ (hblock | htransaction | hinput | houtput)
  · exact (h.block _ hblock).mapState fun _ ↦ .block
  · exact (h.transaction _ htransaction).mapState fun _ ↦ .transaction
  · exact (h.input _ hinput).mapState fun _ ↦ .input
  · exact (h.output _ houtput).mapState fun _ ↦ .output

theorem KeepsOrder.reachTransaction (h : visit.KeepsOrder P) (place : Place) :
    Keeps Ordered.Orderly (visit.reachTransaction place) P := by
  unfold Visit.reachTransaction
  cases place.input with
  | some index => exact keeps_edit (TxFields.keeps_onInputs (h.input.atIndex index))
  | none =>
    cases place.output with
    | some index => exact keeps_edit (TxFields.keeps_onOutputs (h.output.atIndex index))
    | none => exact h.transaction

theorem KeepsOrder.reachBlock (h : visit.KeepsOrder P) (place : Place) :
    Keeps Ordered.Orderly (visit.reachBlock place) P := by
  unfold Visit.reachBlock
  cases place.transaction with
  | some index =>
    exact Block.keeps_editBody (BodyFields.keeps_onTransactions
      ((h.reachTransaction place).atIndex index))
  | none => exact h.block

/-- A visit by unique reference keeps the whole tree in order, at any place. -/
theorem KeepsOrder.reach (h : visit.KeepsOrder P) (place : Place) :
    Keeps Item.Orderly (visit.reach place) P := by
  rintro _ (hblock | htransaction | hinput | houtput)
  · exact (h.reachBlock place _ hblock).mapState fun _ ↦ .block
  · exact (h.reachTransaction place _ htransaction).mapState fun _ ↦ .transaction
  · exact (h.input _ hinput).mapState fun _ ↦ .input
  · exact (h.output _ houtput).mapState fun _ ↦ .output

end Visit

end CoinWire
