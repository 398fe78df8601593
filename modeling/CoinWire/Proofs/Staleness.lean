import Mathlib
import CoinWire.Proofs.Exchange
import CoinWire.Proofs.Routes

/-!
# What a setter makes stale

A value is set at the end of a way through the tree, and the way is lent out step by step: body,
transaction, input or output. Each lender parses what it has not parsed yet, forgets its bytes and
its hash, and puts back one child that was changed. So the nodes on the way go stale, and nothing
beside it is touched, whatever was parsed or cached before. A setter of the header goes to the
header alone.
-/

namespace CoinWire

open AnyNode Holder

variable {F V α β : Type}

/-! ## Single nodes -/

namespace Node

variable [Layout F] {node : Node F} {found found' : F}

theorem eq_of_parsed (hfields : Node.fields node = .ok found (node.putFields found)) {known : F}
    (h : node.parsed = some known) : known = found := by
  rw [fields, h] at hfields
  injection hfields

/-- An edited node has been made stale, with the edited fields put back. -/
theorem edit_ok (hfields : Node.fields node = .ok found (node.putFields found))
    {access : Access F α} {a : α} (haccess : access found = .ok a found') :
    Node.edit access node = .ok a (node.stale.putFields found') := by
  rw [edit_apply, hfields]
  dsimp only
  rw [haccess]
  dsimp only
  rw [stale_eq, stale_eq]
  rfl

/-- The fields alone decide on the answer to a look. -/
theorem answer_look (hfields : Node.fields node = .ok found (node.putFields found))
    (access : Access F α) : (Node.look access).answer node = access.answer found := by
  unfold Access.answer
  rw [look_apply, hfields]
  dsimp only
  cases access found <;> rfl

end Node

namespace Access

variable {σ τ : Type}

theorem atIndex_ok {access : Access σ α} {states : List σ} {index : Nat} {state state' : σ} {a : α}
    (hstate : states[index]? = some state) (haccess : access state = .ok a state') :
    atIndex index access states = .ok a (states.set index state') := by
  rw [atIndex, bind_apply, at?, hstate]
  dsimp only
  rw [map_apply, haccess]
  rfl

theorem answer_focus (get : σ → τ) (set : τ → σ → σ) (access : Access τ α) (state : σ) :
    (focus get set access).answer state = access.answer (get state) := by
  unfold answer focus
  cases access (get state) <;> rfl

theorem answer_mapState {access : Access σ α} {whole : Access τ α} {wrap : σ → τ} {state : σ}
    {state' : τ} (h : whole state' = mapState wrap (access state)) :
    whole.answer state' = access.answer state := by
  unfold answer
  rw [h]
  cases access state <;> rfl

/-- What a look finds in a list is found in one of the states. -/
theorem exists_of_at? {access : Access σ α} {states : List σ} {index : Nat} {a : α}
    (h : (at? index access).answer states = .ok (some a)) :
    ∃ state, states[index]? = some state ∧ access.answer state = .ok a := by
  unfold answer at? at h
  cases hstate : states[index]? with
  | none =>
    rw [hstate] at h
    injection h with h
    contradiction
  | some state =>
    rw [hstate] at h
    dsimp only at h
    refine ⟨state, rfl, ?_⟩
    rw [map_apply] at h
    unfold answer
    cases haccess : access state with
    | error e state' =>
      rw [haccess] at h
      contradiction
    | ok b state' =>
      rw [haccess] at h
      injection h with h
      injection h with h
      rw [h]

end Access

/-- What a look finds in a list of the fields is found in one of the children. -/
theorem Node.exists_of_look [Layout F] {σ : Type} {node : Node F} {fields : F}
    (hfields : Node.fields node = .ok fields (node.putFields fields)) {get : F → List σ}
    {set : List σ → F → F} {index : Nat} {access : Access σ α} {a : α}
    (h : (Node.look (Access.focus get set (Access.at? index access))).answer node =
      .ok (some a)) : ∃ state, (get fields)[index]? = some state ∧ access.answer state = .ok a := by
  rw [Node.answer_look hfields, Access.answer_focus] at h
  exact Access.exists_of_at? h

/-! ## Edits of one node -/

namespace AnyNode

/-- Nodes of one kind as nodes of any kind: the marks are the same, and the children are those that
the fields have. -/
structure Wraps (wrap : Node F → AnyNode) (children : F → Step → Option AnyNode) : Prop where
  cached : ∀ node, (wrap node).cached = node.cached
  raw : ∀ node, (wrap node).raw = node.raw
  digest : ∀ node, (wrap node).digest = node.digest
  isParsed : ∀ node, (wrap node).isParsed = node.isParsed
  child? : ∀ node step, (wrap node).child? step = node.parsed.bind fun fields ↦
    children fields step

theorem wraps_body : Wraps body BodyFields.child? :=
  ⟨fun _ ↦ rfl, fun _ ↦ rfl, fun _ ↦ rfl, fun _ ↦ rfl, fun _ _ ↦ rfl⟩

theorem wraps_transaction : Wraps transaction TxFields.child? :=
  ⟨fun _ ↦ rfl, fun _ ↦ rfl, fun _ ↦ rfl, fun _ ↦ rfl, fun _ _ ↦ rfl⟩

theorem wraps_header : Wraps header fun _ _ ↦ none :=
  ⟨fun _ ↦ rfl, fun _ ↦ rfl, fun _ ↦ rfl, fun _ ↦ rfl, fun _ _ ↦ (Option.bind_fun_none _).symm⟩

theorem wraps_input : Wraps input fun _ _ ↦ none :=
  ⟨fun _ ↦ rfl, fun _ ↦ rfl, fun _ ↦ rfl, fun _ ↦ rfl, fun _ _ ↦ (Option.bind_fun_none _).symm⟩

theorem wraps_output : Wraps output fun _ _ ↦ none :=
  ⟨fun _ ↦ rfl, fun _ ↦ rfl, fun _ ↦ rfl, fun _ ↦ rfl, fun _ _ ↦ (Option.bind_fun_none _).symm⟩

namespace Wraps

variable [Layout F] {node : Node F} {fields fields' : F} {wrap : Node F → AnyNode}
  {children : F → Step → Option AnyNode} {a : α} {access : Access F α}

omit [Layout F] in
/-- An edited node has no bytes and no hash left. -/
theorem stale (h : Wraps wrap children) : (wrap (node.stale.putFields fields')).Stale := by
  refine ⟨?_, ?_, ?_⟩
  · rw [h.cached, Node.stale_eq]
    rfl
  · rw [h.raw, Node.stale_eq]
    rfl
  · rw [h.digest, Node.stale_eq]
    rfl

/-- A child that is there is a child of the fields. -/
theorem child?_of_fields (h : Wraps wrap children)
    (hfields : Node.fields node = .ok fields (node.putFields fields)) {step : Step}
    {child : AnyNode} (hchild : (wrap node).child? step = some child) :
    children fields step = some child := by
  rw [h.child?] at hchild
  obtain ⟨known, hknown, hchild⟩ := Option.bind_eq_some_iff.1 hchild
  rwa [← Node.eq_of_parsed hfields hknown]

/-- An edit of the fields that leaves the children alone. -/
theorem edit (h : Wraps wrap children)
    (hfields : Node.fields node = .ok fields (node.putFields fields))
    (haccess : access fields = .ok a fields') (hchildren : children fields' = children fields) :
    ∃ node', Node.edit access node = .ok a node' ∧ EditedAt [] (wrap node) (wrap node') := by
  refine ⟨_, Node.edit_ok hfields haccess, .here h.stale ?_⟩
  intro step child hchild
  rw [h.child?, Node.putFields, Option.bind_some, hchildren, h.child?_of_fields hfields hchild]

/-- A node that holds a value can be edited. -/
theorem edit_modify {V : Type} [Plain V] [Holder F V] [LawfulLayout F V] {v : V}
    (h : Wraps wrap children) (hholds : Holds node v) (change : F → F)
    (hchildren : ∀ fields, children (change fields) = children fields) :
    ∃ node', Node.edit (modify change) node = .ok () node' ∧
      EditedAt [] (wrap node) (wrap node') := by
  obtain ⟨fields, hfields, -⟩ := Node.fields_eq hholds
  have hmodify : (modify change : Access F Unit) fields = .ok () (change fields) := rfl
  exact h.edit hfields hmodify (hchildren fields)

/-- New fields in which one child is replaced and the others are as they were. -/
theorem replaces {step : Step} {child child' : AnyNode} (h : Wraps wrap children)
    (hfields : Node.fields node = .ok fields (node.putFields fields))
    (hbefore : children fields step = some child) (hafter : children fields' step = some child')
    (hothers : ∀ other ≠ step, children fields' other = children fields other) :
    Replaces step child child' (wrap node).child?
      (wrap (node.stale.putFields fields')).child? := by
  refine ⟨?_, ?_, ?_⟩
  · intro other hother
    exact Option.some.inj ((h.child?_of_fields hfields hother).symm.trans hbefore)
  · rw [h.child?, Node.putFields, Option.bind_some, hafter]
  · intro other hne found hfound
    rw [h.child?, Node.putFields, Option.bind_some, hothers other hne,
      h.child?_of_fields hfields hfound]

end Wraps

/-! ## Lists of children -/

/-- One of the lists of children that the fields have, with the steps that lead to them. -/
structure Lists {σ : Type} (children : F → Step → Option AnyNode) (get : F → List σ)
    (set : List σ → F → F) (step : Nat → Step) (wrap : σ → AnyNode) : Prop where
  child? : ∀ fields index, children fields (step index) = (get fields)[index]?.map wrap
  get_set : ∀ list fields, get (set list fields) = list
  others : ∀ list fields other, (∀ index, other ≠ step index) →
    children (set list fields) other = children fields other

/-- The inputs are one of the two lists of a transaction's children, and the steps to the outputs
lead past them. -/
theorem lists_inputs : Lists TxFields.child? TxFields.inputs
    (fun inputs fields ↦ { fields with inputs }) .input .input := by
  refine ⟨fun _ _ ↦ rfl, fun _ _ ↦ rfl, ?_⟩
  intro list fields other hother
  cases other with
  | input index => exact absurd rfl (hother index)
  | _ => rfl

/-- The outputs are the other list, and the steps to the inputs lead past them. -/
theorem lists_outputs : Lists TxFields.child? TxFields.outputs
    (fun outputs fields ↦ { fields with outputs }) .output .output := by
  refine ⟨fun _ _ ↦ rfl, fun _ _ ↦ rfl, ?_⟩
  intro list fields other hother
  cases other with
  | output index => exact absurd rfl (hother index)
  | _ => rfl

theorem lists_transactions : Lists BodyFields.child? BodyFields.transactions
    (fun transactions fields ↦ { fields with transactions }) .transaction .transaction := by
  refine ⟨fun _ _ ↦ rfl, fun _ _ ↦ rfl, ?_⟩
  intro list fields other hother
  cases other with
  | transaction index => exact absurd rfl (hother index)
  | _ => rfl

section

variable [Layout F] {σ : Type} {children : F → Step → Option AnyNode} {get : F → List σ}
  {set : List σ → F → F} {step : Nat → Step} {wrapChild : σ → AnyNode} {wrap : Node F → AnyNode}
  {node : Node F} {fields : F} {index : Nat} {state state' : σ}

/-- One node in the list is replaced. -/
theorem Lists.replaces (hlist : Lists children get set step wrapChild) (hwrap : Wraps wrap children)
    (hfields : Node.fields node = .ok fields (node.putFields fields))
    (hstate : (get fields)[index]? = some state) (state' : σ) :
    Replaces (step index) (wrapChild state) (wrapChild state') (wrap node).child?
      (wrap (node.stale.putFields (set ((get fields).set index state') fields))).child? := by
  have hlt := (List.getElem?_eq_some_iff.1 hstate).1
  apply hwrap.replaces hfields
  · rw [hlist.child?, hstate, Option.map_some]
  · rw [hlist.child?, hlist.get_set, List.getElem?_set_self hlt, Option.map_some]
  · intro other hne
    by_cases hother : ∃ place, other = step place
    · obtain ⟨place, rfl⟩ := hother
      have hindex : index ≠ place := fun hsame ↦ hne (hsame ▸ rfl)
      rw [hlist.child?, hlist.child?, hlist.get_set, List.getElem?_set_ne hindex]
    · exact hlist.others _ _ _ fun place hplace ↦ hother ⟨place, hplace⟩

/-- A child is edited through its parent. -/
theorem Lists.edit_atIndex (hlist : Lists children get set step wrapChild)
    (hwrap : Wraps wrap children)
    (hfields : Node.fields node = .ok fields (node.putFields fields))
    (hstate : (get fields)[index]? = some state) {access : Access σ α} {a : α}
    (haccess : access state = .ok a state') {route : List Step}
    (hedited : EditedAt route (wrapChild state) (wrapChild state')) :
    ∃ node', Node.edit (Access.focus get set (Access.atIndex index access)) node = .ok a node' ∧
      EditedAt (step index :: route) (wrap node) (wrap node') := by
  have hedit : Access.focus get set (Access.atIndex index access) fields =
      .ok a (set ((get fields).set index state') fields) := by
    rw [Access.focus, Access.atIndex_ok hstate haccess]
    rfl
  exact ⟨_, Node.edit_ok hfields hedit,
    .step hwrap.stale (hlist.replaces hwrap hfields hstate state') hedited⟩

end

end AnyNode

/-! ## Edits of a block -/

namespace Block

variable {block : Block} {a : α}

theorem answer_hash (block : Block) : Block.hash.answer block = Node.hash.answer block.header :=
  Access.answer_focus _ _ _ _

/-- An edit of the header makes the header and the block stale, and the body stays as it is. -/
theorem editHeader_editedAlong {access : Access Header α} {header' : Node Header}
    (hedit : Node.edit access block.header = .ok a header')
    (hedited : EditedAt [] (.header block.header) (.header header')) :
    ∃ block', Block.editHeader access block = .ok a block' ∧
      Item.EditedAlong [.header] (.block block) (.block block') := by
  refine ⟨{ block with header := header', raw := none }, ?_, Item.EditedAlong.of_block hedited
    ⟨?_, rfl, ?_⟩ ⟨rfl, ?_, ?_, fun _ ↦ rfl⟩⟩
  · rw [editHeader_apply, onHeader, Access.focus, hedit]
    rfl
  · rintro other ⟨⟩
    rfl
  · intro other hother found hfound
    cases other with
    | header => exact absurd rfl hother
    | _ => exact hfound
  · intro hheader
    exact absurd List.mem_cons_self hheader
  · intro hheader
    exact absurd List.mem_cons_self hheader

theorem replaces_body {body : Node BodyFields} (hbody : block.body = some body)
    (body' : Node BodyFields) :
    Replaces .body (.body body) (.body body') block.child?
      { block with body := some body', raw := none : Block }.child? := by
  refine ⟨?_, rfl, ?_⟩
  · intro other hother
    rw [Block.child?, hbody] at hother
    injection hother with hother
    exact hother.symm
  · intro other hother found hfound
    cases other with
    | body => exact absurd rfl hother
    | _ => exact hfound

/-- An edit below the body makes the way down to it stale, and the header stays as it is. -/
theorem editBody_editedAlong {body body' : Node BodyFields} {access : Access BodyFields α}
    {route : List Step} (hbody : block.body = some body)
    (hedit : Node.edit access body = .ok a body')
    (hedited : EditedAt route (.body body) (.body body')) :
    ∃ block', Block.editBody access block = .ok a block' ∧
      Item.EditedAlong (.body :: route) (.block block) (.block block') := by
  refine ⟨{ block with body := some body', raw := none }, ?_,
    Item.EditedAlong.of_block hedited (replaces_body hbody body') ⟨rfl, fun _ ↦ rfl, ?_, ?_⟩⟩
  · rw [editBody_apply, onBody]
    dsimp only
    rw [hbody]
    dsimp only
    rw [hedit]
    rfl
  · intro _
    rw [answer_hash, answer_hash]
  · intro hnot
    exact absurd List.mem_cons_self hnot

end Block

/-! ## Setters -/

namespace Visit

/-- The way a setter goes from the value it is called on; nothing if the value has no such
setter. -/
def Assignment.route? : Assignment → Item → Option (List Step)
  | .version _, .block _ | .time _, .block _ | .bits _, .block _ | .nonce _, .block _
  | .prev _, .block _ | .merkleRoot _, .block _ => some [.header]
  | .signature _, .block whole => if whole.isHeaderOnly then none else some [.body]
  | .version _, .transaction _ | .time _, .transaction _ | .lockTime _, .transaction _ => some []
  | .outPoint _, .input _ | .scriptSig _, .input _ | .sequence _, .input _ => some []
  | .value _, .output _ | .scriptPubkey _, .output _ => some []
  | _, _ => none

variable {assignment : Assignment} {target : List Step}

theorem plainly_ok {σ : Type} {access : Access σ Unit} {state state' : σ}
    (h : access state = .ok () state') : plainly access state = .ok .done state' := by
  rw [plainly, Access.bind_apply, h]
  rfl

/-- A setter of an input makes the input stale. -/
theorem set_input_editedAt {input : Input} {v : TxIn} (h : Holds input v)
    (hroute : assignment.route? (.input input) = some target) :
    ∃ input', (set assignment).input input = .ok .done input' ∧
      EditedAt target (.input input) (.input input') := by
  obtain ⟨g, hset, rfl⟩ : ∃ g : TxIn → TxIn,
      (set assignment).input = plainly (Node.edit (modify g)) ∧ [] = target := by
    cases assignment <;> first | exact ⟨_, rfl, Option.some.inj hroute⟩ | contradiction
  obtain ⟨input', hedit, hedited⟩ := wraps_input.edit_modify h g fun _ ↦ rfl
  exact ⟨input', hset ▸ plainly_ok hedit, hedited⟩

theorem set_output_editedAt {output : Output} {v : TxOut} (h : Holds output v)
    (hroute : assignment.route? (.output output) = some target) :
    ∃ output', (set assignment).output output = .ok .done output' ∧
      EditedAt target (.output output) (.output output') := by
  obtain ⟨g, hset, rfl⟩ : ∃ g : TxOut → TxOut,
      (set assignment).output = plainly (Node.edit (modify g)) ∧ [] = target := by
    cases assignment <;> first | exact ⟨_, rfl, Option.some.inj hroute⟩ | contradiction
  obtain ⟨output', hedit, hedited⟩ := wraps_output.edit_modify h g fun _ ↦ rfl
  exact ⟨output', hset ▸ plainly_ok hedit, hedited⟩

/-- The numbers of a transaction are set beside its inputs and outputs. -/
theorem set_transaction_editedAt {transaction : Transaction} {tx : Tx} (h : Holds transaction tx)
    (hroute : assignment.route? (.transaction transaction) = some target) :
    ∃ transaction', (set assignment).transaction transaction = .ok .done transaction' ∧
      EditedAt target (.transaction transaction) (.transaction transaction') := by
  obtain ⟨g, hset, hchildren, rfl⟩ : ∃ g : TxFields → TxFields,
      (set assignment).transaction = plainly (Node.edit (modify g)) ∧
        (∀ fields, (g fields).child? = fields.child?) ∧ [] = target := by
    cases assignment <;>
      first | exact ⟨_, rfl, fun _ ↦ rfl, Option.some.inj hroute⟩ | contradiction
  obtain ⟨transaction', hedit, hedited⟩ := wraps_transaction.edit_modify h g hchildren
  exact ⟨transaction', hset ▸ plainly_ok hedit, hedited⟩

/-- A setter of a block makes stale the part whose field it sets. -/
theorem set_block_editedAlong {block : Block} {v : PlainBlock} (h : Holds block v)
    (hroute : assignment.route? (.block block) = some target) :
    ∃ block', (set assignment).block block = .ok .done block' ∧
      Item.EditedAlong target (.block block) (.block block') := by
  obtain ⟨g, hset, rfl⟩ | ⟨g, hset, hbody⟩ : (∃ g : Header → Header,
      (set assignment).block = plainly (Block.editHeader (modify g)) ∧ [.header] = target) ∨
      ∃ g : BodyFields → BodyFields,
        (set assignment).block = plainly (Block.editBody (modify g)) ∧
          (∀ fields, (g fields).child? = fields.child?) ∧
          (if block.isHeaderOnly then none else some [.body]) = some target := by
    cases assignment with
    | signature => exact .inr ⟨_, rfl, fun _ ↦ rfl, hroute⟩
    | version | time | bits | nonce | prev | merkleRoot =>
      exact .inl ⟨_, rfl, Option.some.inj hroute⟩
    | _ => contradiction
  · obtain ⟨header', hedit, hedited⟩ := wraps_header.edit_modify h.header g fun _ ↦ rfl
    obtain ⟨block', hblock, hedited⟩ := Block.editHeader_editedAlong hedit hedited
    exact ⟨block', hset ▸ plainly_ok hblock, hedited⟩
  · obtain ⟨hchildren, hroute⟩ := hbody
    obtain ⟨hnone, -⟩ | ⟨body, w, hsome, -, hholds⟩ := h.body_cases
    · rw [Block.isHeaderOnly, hnone] at hroute
      contradiction
    · rw [Block.isHeaderOnly, hsome] at hroute
      obtain rfl : [.body] = target := Option.some.inj hroute
      obtain ⟨body', hedit, hedited⟩ := wraps_body.edit_modify hholds g hchildren
      obtain ⟨block', hblock, hedited⟩ := Block.editBody_editedAlong hsome hedit hedited
      exact ⟨block', hset ▸ plainly_ok hblock, hedited⟩

end Visit

/-! ## Reaching -/

/-- The way from a transaction to the place. -/
def Place.inner (place : Place) : List Step :=
  match place.input, place.output with
  | some index, _ => [.input index]
  | none, some index => [.output index]
  | none, none => []

/-- The way from an item to the place. -/
def Place.route (place : Place) : Item → List Step
  | .block _ =>
    match place.transaction with
    | some index => .body :: .transaction index :: place.inner
    | none => []
  | .transaction _ => place.inner
  | .input _ => []
  | .output _ => []

namespace Visit

variable {assignment : Assignment} {target : List Step} {place : Place} {child : Item}

/-- A setter below a transaction makes the way down to its target stale, and nothing else. -/
theorem reachTransaction_editedAt {transaction : Transaction} {tx : Tx}
    (h : Holds transaction tx)
    (hchild : (found.lookTransaction? place).answer transaction = .ok (some child))
    (hroute : assignment.route? child = some target) :
    ∃ transaction', (set assignment).reachTransaction place transaction = .ok .done transaction' ∧
      EditedAt (place.inner ++ target) (.transaction transaction) (.transaction transaction') := by
  obtain ⟨fields, hfields, hholds⟩ := Node.fields_eq h
  have hfieldsHold : TxFields.Holds fields tx := Node.Holds.parsed hholds fields rfl
  unfold lookTransaction? at hchild
  unfold reachTransaction Place.inner
  cases hinput : place.input with
  | some index =>
    rw [hinput] at hchild
    dsimp only at hchild ⊢
    obtain ⟨input, hat, hfound⟩ := Node.exists_of_look hfields hchild
    obtain rfl : Item.input input = child := Except.ok.inj hfound
    obtain ⟨v, hv⟩ := exists_forall₂_iff.1 ⟨_, hfieldsHold.inputs⟩ input (List.mem_of_getElem? hat)
    obtain ⟨input', hset, hedited⟩ := set_input_editedAt hv hroute
    exact lists_inputs.edit_atIndex wraps_transaction hfields hat hset hedited
  | none =>
    rw [hinput] at hchild
    cases houtput : place.output with
    | some index =>
      rw [houtput] at hchild
      dsimp only at hchild ⊢
      obtain ⟨output, hat, hfound⟩ := Node.exists_of_look hfields hchild
      obtain rfl : Item.output output = child := Except.ok.inj hfound
      obtain ⟨v, hv⟩ :=
        exists_forall₂_iff.1 ⟨_, hfieldsHold.outputs⟩ output (List.mem_of_getElem? hat)
      obtain ⟨output', hset, hedited⟩ := set_output_editedAt hv hroute
      exact lists_outputs.edit_atIndex wraps_transaction hfields hat hset hedited
    | none =>
      rw [houtput] at hchild
      obtain rfl : Item.transaction transaction = child :=
        Option.some.inj (Except.ok.inj hchild)
      exact set_transaction_editedAt h hroute

/-- A transaction that is found in a block is one of its body's. -/
theorem exists_of_lookBlock? {block : Block} {v : PlainBlock} {index : Nat} (h : Holds block v)
    (htransaction : place.transaction = some index)
    (hchild : (found.lookBlock? place).answer block = .ok (some child)) :
    ∃ body fields transaction, block.body = some body ∧
      Node.fields body = .ok fields (body.putFields fields) ∧
      fields.transactions[index]? = some transaction ∧ (∃ tx : Tx, Holds transaction tx) ∧
      (found.lookTransaction? place).answer transaction = .ok (some child) := by
  unfold lookBlock? at hchild
  rw [htransaction] at hchild
  obtain ⟨block', hlook⟩ := Access.answer_eq_ok_iff.1 hchild
  obtain ⟨answer, middle, hlook, hjoin⟩ := Access.bind_eq_ok_iff.1 hlook
  injection hjoin with hjoin
  obtain rfl : answer = some (some child) := Option.join_eq_some_iff.1 hjoin
  obtain ⟨hnone, -⟩ | ⟨body, w, hsome, -, hholds⟩ := h.body_cases
  · rw [Block.lookTransaction?, Block.lookTransactions, Block.onBody, hnone] at hlook
    contradiction
  · rw [Block.lookTransaction?, Block.lookTransactions, Block.onBody, hsome] at hlook
    obtain ⟨body', hbody, -⟩ := Access.mapState_eq_ok_iff.1 hlook
    obtain ⟨fields, hfields, hparsed⟩ := Node.fields_eq hholds
    have hfieldsHold : BodyFields.Holds fields w := Node.Holds.parsed hparsed fields rfl
    obtain ⟨transaction, hat, hfound⟩ :=
      Node.exists_of_look hfields (Access.answer_eq_ok hbody)
    exact ⟨body, fields, transaction, hsome, hfields, hat,
      exists_forall₂_iff.1 ⟨_, hfieldsHold.transactions⟩ _ (List.mem_of_getElem? hat), hfound⟩

/-- A setter below a block makes the way down to its target stale, and nothing else. -/
theorem reachBlock_editedAlong {block : Block} {v : PlainBlock} (h : Holds block v)
    (hchild : (found.lookBlock? place).answer block = .ok (some child))
    (hroute : assignment.route? child = some target) :
    ∃ block', (set assignment).reachBlock place block = .ok .done block' ∧
      Item.EditedAlong (place.route (.block block) ++ target) (.block block) (.block block') := by
  unfold reachBlock Place.route
  cases htransaction : place.transaction with
  | none =>
    rw [lookBlock?, htransaction] at hchild
    obtain rfl : Item.block block = child := Option.some.inj (Except.ok.inj hchild)
    exact set_block_editedAlong h hroute
  | some index =>
    obtain ⟨body, fields, transaction, hbody, hfields, hat, ⟨tx, htx⟩, hfound⟩ :=
      exists_of_lookBlock? h htransaction hchild
    obtain ⟨transaction', hset, hedited⟩ := reachTransaction_editedAt htx hfound hroute
    obtain ⟨body', hedit, hedited⟩ :=
      lists_transactions.edit_atIndex wraps_body hfields hat hset hedited
    exact Block.editBody_editedAlong hbody hedit hedited

end Visit

/-- A setter that is called on what a look finds at a place succeeds. The nodes on the way to the
value it sets are stale afterwards, and whatever else was there has stayed as it was. -/
theorem Item.Reachable.editedAlong_of_set {item child : Item} (hitem : item.Reachable)
    {place : Place} {assignment : Visit.Assignment} {target : List Step}
    (hchild : (Visit.found.look? place).answer item = .ok (some child))
    (hroute : assignment.route? child = some target) :
    ∃ item', (Visit.set assignment).reach place item = .ok .done item' ∧
      item.EditedAlong (place.route item ++ target) item' := by
  obtain ⟨v, hv⟩ := hitem.holds
  cases hv with
  | @block block v h =>
    have hlook : Visit.found.look? place (.block block) =
        Access.mapState .block (Visit.found.lookBlock? place block) := rfl
    rw [Access.answer_mapState hlook] at hchild
    obtain ⟨block', hset, hedited⟩ := Visit.reachBlock_editedAlong h hchild hroute
    exact ⟨.block block', by rw [Visit.reach, hset]; rfl, hedited⟩
  | @transaction transaction tx h =>
    have hlook : Visit.found.look? place (.transaction transaction) =
        Access.mapState .transaction (Visit.found.lookTransaction? place transaction) := rfl
    rw [Access.answer_mapState hlook] at hchild
    obtain ⟨transaction', hset, hedited⟩ := Visit.reachTransaction_editedAt h hchild hroute
    exact ⟨.transaction transaction', by rw [Visit.reach, hset]; rfl,
      .of_node hedited (fun _ ↦ rfl) (fun _ ↦ rfl) (by simp)⟩
  | @input input v h =>
    obtain rfl : Item.input input = child := Option.some.inj (Except.ok.inj hchild)
    obtain ⟨input', hset, hedited⟩ := Visit.set_input_editedAt h hroute
    exact ⟨.input input', by rw [Visit.reach, hset]; rfl,
      .of_node hedited (fun _ ↦ rfl) (fun _ ↦ rfl) (by simp)⟩
  | @output output v h =>
    obtain rfl : Item.output output = child := Option.some.inj (Except.ok.inj hchild)
    obtain ⟨output', hset, hedited⟩ := Visit.set_output_editedAt h hroute
    exact ⟨.output output', by rw [Visit.reach, hset]; rfl,
      .of_node hedited (fun _ ↦ rfl) (fun _ ↦ rfl) (by simp)⟩

/-- In a block of two transactions of which nothing is parsed, the value of an output of the second
one is set. -/
theorem Item.Reachable.editedAlong_of_set_value :
    let encoding := List.replicate 9 0 ++ [1] ++ List.replicate 9 0 ++ List.replicate 4 0
    let whole := List.replicate 80 0 ++ [2] ++ encoding ++ encoding ++ [0]
    let place : Place := ⟨"a", some 1, none, some 0⟩
    let item := Item.block ⟨⟨some (whole.take 80), true, .deferredRetain, none, none⟩,
      some ⟨some (whole.drop 80), true, .deferredRetain, none, none⟩, some whole⟩
    let child := Item.output ⟨some (List.replicate 9 0), true, .deferredRetain, none, none⟩
    item.Reachable ∧ (Visit.found.look? place).answer item = .ok (some child) ∧
      (Visit.Assignment.value 7).route? child = some [] ∧
      ∃ item', (Visit.set (.value 7)).reach place item = .ok .done item' ∧
        item.EditedAlong [.body, .transaction 1, .output 0] item' := by
  intro encoding whole place item child
  have hmake : (Source.block whole .deferredRetain).make = .ok item := by
    cbv
  have hitem : item.Reachable := Item.Reachable.of_make hmake
  have hchild : (Visit.found.look? place).answer item = .ok (some child) := by
    cbv
  exact ⟨hitem, hchild, rfl, hitem.editedAlong_of_set hchild rfl⟩

end CoinWire
