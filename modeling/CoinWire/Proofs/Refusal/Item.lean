import Mathlib
import CoinWire.Proofs.Moving
import CoinWire.Proofs.Refusal
import CoinWire.Proofs.Writing

/-!
# What a refused edit leaves behind

Values are edited through exclusive references, which are had one from the other. Where one is
refused, the value it was asked of has been made to forget bytes and hashes, and no more. All of
this can be had again from the fields: the value is as before, and writing it makes up for what was
lost.
-/

namespace CoinWire

open AnyNode Holder

variable {α : Type}

/-! ## Visits through an exclusive reference -/

namespace Visit

def Children.step : Children → Nat → Step
  | .transactions => .transaction
  | .inputs => .input
  | .outputs => .output

/-- Visits that need no child of the value they are at. -/
inductive Rests : {α : Type} → Visit α → Prop where
  | found : Rests found
  | set (assignment : Assignment) : Rests (set assignment)
  | headerEdit : Rests headerEdit
  | add {child : Item} (h : child.Reachable) : Rests (add child)
  | put {item : Item} (h : item.Reachable) : Rests (put item)
  | clear (children : Children) : Rests (clear children)
  | invalidate : Rests invalidate
  | serialize : Rests serialize

/-- Visits through an exclusive reference, with the way from the value they are at to the child that
they need there. -/
inductive Exclusive : {α : Type} → Visit α → List Step → Prop where
  | here {α : Type} {visit : Visit α} (h : visit.Rests) : Exclusive visit []
  | remove (children : Children) (index : Nat) :
    Exclusive (remove children index) (children.lender ++ [children.step index])

variable {visit : Visit α} {target : List Step} {place : Place} {e : CodecError}

/-- The visit edits as an alteration does that does not fail, but of a block perhaps. -/
theorem Rests.exists_alteration (h : visit.Rests) :
    ∃ (β : Type) (R : α → β → Prop) (alteration : Alteration β), visit.Makes R alteration ∧
      (∀ tx, ∃ found, alteration.transaction tx = .ok found) ∧
      (∀ v, ∃ found, alteration.input v = .ok found) ∧
      ∀ v, ∃ found, alteration.output v = .ok found := by
  cases h with
  | found =>
    exact ⟨_, _, _, asks_found.makes, fun _ ↦ ⟨_, rfl⟩, fun _ ↦ ⟨_, rfl⟩, fun _ ↦ ⟨_, rfl⟩⟩
  | set assignment =>
    refine ⟨_, _, _, makes_set assignment, ?_⟩
    cases assignment <;> exact ⟨fun _ ↦ ⟨_, rfl⟩, fun _ ↦ ⟨_, rfl⟩, fun _ ↦ ⟨_, rfl⟩⟩
  | headerEdit =>
    exact ⟨_, _, _, makes_headerEdit, fun _ ↦ ⟨_, rfl⟩, fun _ ↦ ⟨_, rfl⟩, fun _ ↦ ⟨_, rfl⟩⟩
  | add h =>
    obtain ⟨v, hv⟩ := h.holds
    refine ⟨_, _, _, makes_add hv, ?_⟩
    cases v <;> exact ⟨fun _ ↦ ⟨_, rfl⟩, fun _ ↦ ⟨_, rfl⟩, fun _ ↦ ⟨_, rfl⟩⟩
  | put h =>
    obtain ⟨v, hv⟩ := h.holds
    refine ⟨_, _, _, makes_put hv, ?_⟩
    cases v <;> exact ⟨fun _ ↦ ⟨_, rfl⟩, fun _ ↦ ⟨_, rfl⟩, fun _ ↦ ⟨_, rfl⟩⟩
  | clear children =>
    refine ⟨_, _, _, makes_clear children, ?_⟩
    cases children <;> exact ⟨fun _ ↦ ⟨_, rfl⟩, fun _ ↦ ⟨_, rfl⟩, fun _ ↦ ⟨_, rfl⟩⟩
  | invalidate =>
    exact ⟨_, _, _, makes_invalidate, fun _ ↦ ⟨_, rfl⟩, fun _ ↦ ⟨_, rfl⟩, fun _ ↦ ⟨_, rfl⟩⟩
  | serialize =>
    exact ⟨_, _, _, makes_serialize, fun _ ↦ ⟨_, rfl⟩, fun _ ↦ ⟨_, rfl⟩, fun _ ↦ ⟨_, rfl⟩⟩

/-- A visit that rests at transactions does not fail there. -/
theorem Rests.transaction_ne_error (h : visit.Rests) {transaction transaction' : Transaction}
    {tx : Tx} (hholds : Holds transaction tx) :
    visit.transaction transaction ≠ .error e transaction' := by
  obtain ⟨β, R, alteration, hmakes, htotal, -⟩ := h.exists_alteration
  exact hmakes.transaction.ne_error hholds (htotal tx) e

theorem Exclusive.input_ne_error (h : visit.Exclusive target) {input input' : Input} {v : TxIn}
    (hholds : Holds input v) : visit.input input ≠ .error e input' := by
  cases h with
  | here h =>
    obtain ⟨β, R, alteration, hmakes, -, htotal, -⟩ := h.exists_alteration
    exact hmakes.input.ne_error hholds (htotal v) e
  | remove => nofun

theorem Exclusive.output_ne_error (h : visit.Exclusive target) {output output' : Output} {v : TxOut}
    (hholds : Holds output v) : visit.output output ≠ .error e output' := by
  cases h with
  | here h =>
    obtain ⟨β, R, alteration, hmakes, -, -, htotal⟩ := h.exists_alteration
    exact hmakes.output.ne_error hholds (htotal v) e
  | remove => nofun

/-! ### Transactions -/

variable {transaction transaction' : Transaction} {tx : Tx}

/-- A transaction refuses to give a child that it does not have. -/
theorem Exclusive.refused_transaction (h : visit.Exclusive target) (hholds : Holds transaction tx)
    (hrun : visit.transaction transaction = .error e transaction') :
    Refused target e (.transaction transaction) (.transaction transaction') := by
  cases h with
  | here h => exact absurd hrun (h.transaction_ne_error hholds)
  | remove children index =>
    obtain ⟨fields, hfields, -⟩ := Node.fields_eq hholds
    cases children with
    | transactions => contradiction
    | inputs =>
      exact lists_inputs.refused_detach wraps_transaction (fun _ ↦ rfl) hfields
        (Access.eq_error_of_answer hrun)
    | outputs =>
      exact lists_outputs.refused_detach wraps_transaction (fun _ ↦ rfl) hfields
        (Access.eq_error_of_answer hrun)

/-- A visit refused below a transaction has lent out the nodes down to where it was refused. -/
theorem Exclusive.refused_reachTransaction (h : visit.Exclusive target)
    (hholds : Holds transaction tx)
    (hrun : visit.reachTransaction place transaction = .error e transaction') :
    Refused (place.inner ++ target) e (.transaction transaction) (.transaction transaction') := by
  obtain ⟨fields, hfields, hparsed⟩ := Node.fields_eq hholds
  have hfieldsHold : TxFields.Holds fields tx := Node.Holds.parsed hparsed fields rfl
  unfold reachTransaction at hrun
  unfold Place.inner
  cases hinput : place.input with
  | some index =>
    rw [hinput] at hrun
    refine lists_inputs.refused_atIndex wraps_transaction (fun _ ↦ rfl) hfields ?_ hrun
    intro input input' hat hfails
    obtain ⟨v, hv⟩ :=
      exists_forall₂_iff.1 ⟨_, hfieldsHold.inputs⟩ input (List.mem_of_getElem? hat)
    exact absurd hfails (h.input_ne_error hv)
  | none =>
    rw [hinput] at hrun
    cases houtput : place.output with
    | some index =>
      rw [houtput] at hrun
      refine lists_outputs.refused_atIndex wraps_transaction (fun _ ↦ rfl) hfields ?_ hrun
      intro output output' hat hfails
      obtain ⟨v, hv⟩ :=
        exists_forall₂_iff.1 ⟨_, hfieldsHold.outputs⟩ output (List.mem_of_getElem? hat)
      exact absurd hfails (h.output_ne_error hv)
    | none =>
      rw [houtput] at hrun
      exact h.refused_transaction hholds hrun

end Visit

/-! ## Items -/

namespace Item

/-- The nodes on the route were lent out, and nothing else was done: every other node that was there
is there as it was. Of a block the bytes of the whole are forgotten too. -/
structure LentAlong (lent : List Step) (item item' : Item) : Prop where
  reached : lent ≠ [] → ∃ node, item'.at? lent = some node
  onRoute : ∀ front, front <+: lent → ∀ after, item'.at? front = some after →
    after.Stale ∧ after.isParsed = true ∧
      ∀ before, item.at? front = some before → after.config = before.config
  kept : ∀ other, ¬other <+: lent → ∀ node, item.at? other = some node →
    item'.at? other = some node
  block : ∀ block, item = .block block → ∃ block', item' = .block block' ∧ block'.raw = none ∧
    block'.header = block.header ∧ block'.isHeaderOnly = block.isHeaderOnly

/-- Why an edit that goes the way is refused after the nodes on `lent` were lent out: a child is not
there, or a block has no body. -/
def Refuses (item' : Item) (way lent : List Step) (e : CodecError) : Prop :=
  (e = .headerOnly ∧ lent = [] ∧ ∃ block, item' = .block block ∧ block.isHeaderOnly = true) ∨
    ∃ index length, e = .indexOutOfBounds index length ∧
      Lacks (fun route ↦ item'.at? route) way lent index length

/-- The edit has lent out nodes and was refused. -/
def Refused (way : List Step) (e : CodecError) (item item' : Item) : Prop :=
  ∃ lent, item.LentAlong lent item' ∧ item'.Refuses way lent e

variable {item item' : Item} {way lent : List Step} {e : CodecError}

/-- The root of the tree is a node. -/
theorem Refused.of_node {node node' : AnyNode} (h : AnyNode.Refused way e node node')
    (hbefore : ∀ route, item.at? route = node.at? route)
    (hafter : ∀ route, item'.at? route = node'.at? route)
    (hitem : ∀ block, item ≠ .block block) : item.Refused way e item' := by
  obtain ⟨lent, index, length, he, hlent, hlacks⟩ := h
  refine ⟨lent, ⟨?_, ?_, ?_, fun block hblock ↦ absurd hblock (hitem block)⟩,
    .inr ⟨index, length, he, ?_⟩⟩
  · intro _
    obtain ⟨found, hfound, -⟩ := hlent.editedAt.on_route lent List.prefix_rfl
    exact ⟨found, by rw [hafter, hfound]⟩
  · intro front hfront after
    rw [hbefore, hafter]
    exact hlent.on_route front hfront after
  · intro other hother node
    rw [hbefore, hafter]
    exact hlent.editedAt.off_route other hother node
  · rwa [funext hafter]

/-- A block without a body refuses all that needs one. -/
theorem Refused.of_no_body {block : Block} (hbody : block.body = none) :
    Item.Refused way .headerOnly (.block block) (.block { block with raw := none }) := by
  have honly : block.isHeaderOnly = true := by rw [Block.isHeaderOnly, hbody, Option.isNone_none]
  refine ⟨[], ⟨absurd rfl, ?_, ?_, ?_⟩, .inl ⟨rfl, rfl, _, rfl, honly⟩⟩
  · intro front hfront after hafter
    obtain rfl := List.prefix_nil.1 hfront
    contradiction
  · intro other _ node hnode
    cases other <;> exact hnode
  · rintro _ ⟨⟩
    exact ⟨_, rfl, rfl, rfl, rfl⟩

/-- The body of a block refuses. -/
theorem Refused.of_body {block : Block} {body body' : Node BodyFields}
    (hbody : block.body = some body) (h : AnyNode.Refused way e (.body body) (.body body')) :
    Item.Refused (.body :: way) e (.block block)
      (.block { block with body := some body', raw := none }) := by
  obtain ⟨lent, index, length, he, hlent, hlacks⟩ := h
  have hreplaces := Block.replaces_body hbody body'
  refine ⟨.body :: lent, ⟨?_, ?_, ?_, ?_⟩, .inr ⟨index, length, he, hlacks.cons fun _ ↦ rfl⟩⟩
  · intro _
    obtain ⟨found, hfound, -⟩ := hlent.editedAt.on_route lent List.prefix_rfl
    exact ⟨found, hfound⟩
  · intro front hfront after hafter
    cases front with
    | nil => contradiction
    | cons first front =>
      obtain ⟨rfl, hrest⟩ := List.cons_prefix_cons.1 hfront
      obtain ⟨hstale, hparsed, hconfig⟩ := hlent.on_route front hrest after hafter
      refine ⟨hstale, hparsed, fun before hbefore ↦ ?_⟩
      obtain ⟨other, hother, hbefore⟩ := Option.bind_eq_some_iff.1 hbefore
      obtain rfl := hreplaces.before other hother
      exact hconfig before hbefore
  · intro other hother node hnode
    exact hreplaces.off_route hlent.editedAt.off_route hother hnode
  · rintro _ ⟨⟩
    exact ⟨_, rfl, rfl, rfl, by rw [Block.isHeaderOnly, Block.isHeaderOnly, hbody]; rfl⟩

end Item

/-! ### Blocks -/

/-- A body that is there can be parsed. -/
theorem Block.Holds.exists_fields {block : Block} {v : PlainBlock} (h : block.Holds v)
    {body : Node BodyFields} (hbody : block.body = some body) :
    ∃ fields w, Node.fields body = .ok fields (body.putFields fields) ∧
      BodyFields.Holds fields w := by
  obtain ⟨hnone, -⟩ | ⟨known, w, hknown, -, hw⟩ := h.body_cases
  · rw [hnone] at hbody
    contradiction
  · obtain rfl : known = body := Option.some.inj (hknown.symm.trans hbody)
    obtain ⟨fields, hfields, hparsed⟩ := Node.fields_eq hw
    exact ⟨fields, w, hfields, Node.Holds.parsed hparsed fields rfl⟩

namespace Visit

variable {visit : Visit α} {target way : List Step} {place : Place} {e : CodecError}
  {block block' : Block} {v : PlainBlock}

/-- An edit of the body is refused for want of one, or by the body. -/
theorem refused_editBody {access : Access BodyFields α} (hholds : block.Holds v)
    (hbody : ∀ body body' fields w, Node.fields body = .ok fields (body.putFields fields) →
      BodyFields.Holds fields w → Node.edit access body = .error e body' →
      AnyNode.Refused way e (.body body) (.body body'))
    (hrun : Block.editBody access block = .error e block') :
    Item.Refused (.body :: way) e (.block block) (.block block') := by
  obtain ⟨hnone, rfl, rfl⟩ | ⟨body, body', hsome, hedit, rfl⟩ := Block.editBody_eq_error hrun
  · exact .of_no_body hnone
  · obtain ⟨fields, w, hfields, hw⟩ := hholds.exists_fields hsome
    exact .of_body hsome (hbody body body' fields w hfields hw hedit)

/-- Only the signature cannot be set in every block. -/
theorem Rests.refused_block (h : visit.Rests) (hholds : block.Holds v)
    (hrun : visit.block block = .error e block') :
    Item.Refused way e (.block block) (.block block') := by
  cases h with
  | set assignment =>
    cases assignment with
    | signature value =>
      obtain ⟨hnone, rfl, rfl⟩ | ⟨body, body', hsome, hedit, rfl⟩ :=
        Block.editBody_eq_error (Access.eq_error_of_answer hrun)
      · exact .of_no_body hnone
      · obtain ⟨fields, w, hfields, -⟩ := hholds.exists_fields hsome
        obtain ⟨fields', hmodify, -⟩ := Node.edit_eq_error hfields hedit
        contradiction
    | _ => exact absurd hrun ((makes_set _).block.ne_error hholds ⟨_, rfl⟩ e)
  | found => exact absurd hrun (asks_found.makes.block.ne_error hholds ⟨_, rfl⟩ e)
  | headerEdit => exact absurd hrun (makes_headerEdit.block.ne_error hholds ⟨_, rfl⟩ e)
  | add h =>
    obtain ⟨w, hw⟩ := h.holds
    refine absurd hrun ((makes_add hw).block.ne_error hholds ?_ e)
    cases w <;> exact ⟨_, rfl⟩
  | put h =>
    obtain ⟨w, hw⟩ := h.holds
    refine absurd hrun ((makes_put hw).block.ne_error hholds ?_ e)
    cases w <;> exact ⟨_, rfl⟩
  | clear children => exact absurd hrun ((makes_clear children).block.ne_error hholds ⟨_, rfl⟩ e)
  | invalidate => exact absurd hrun (makes_invalidate.block.ne_error hholds ⟨_, rfl⟩ e)
  | serialize => exact absurd hrun (makes_serialize.block.ne_error hholds ⟨_, rfl⟩ e)

/-- A visit refused at a block has lent out the parts down to where it was refused. -/
theorem Exclusive.refused_block (h : visit.Exclusive target) (hholds : block.Holds v)
    (hrun : visit.block block = .error e block') :
    Item.Refused target e (.block block) (.block block') := by
  cases h with
  | here h => exact h.refused_block hholds hrun
  | remove children index =>
    cases children with
    | transactions =>
      refine refused_editBody hholds ?_ (Access.eq_error_of_answer hrun)
      intro body body' fields w hfields _ hedit
      exact lists_transactions.refused_detach wraps_body (fun _ ↦ rfl) hfields hedit
    | inputs | outputs => contradiction

/-- A visit refused below a block has lent out the nodes down to where it was refused. -/
theorem Exclusive.refused_reachBlock (h : visit.Exclusive target) (hholds : block.Holds v)
    (hrun : visit.reachBlock place block = .error e block') :
    Item.Refused (place.route (.block block) ++ target) e (.block block) (.block block') := by
  unfold reachBlock at hrun
  unfold Place.route
  cases htransaction : place.transaction with
  | none =>
    rw [htransaction] at hrun
    exact h.refused_block hholds hrun
  | some index =>
    rw [htransaction] at hrun
    refine refused_editBody hholds ?_ hrun
    intro body body' fields w hfields hw hedit
    refine lists_transactions.refused_atIndex wraps_body (fun _ ↦ rfl) hfields ?_ hedit
    intro transaction transaction' hat hfails
    obtain ⟨tx, htx⟩ :=
      exists_forall₂_iff.1 ⟨_, hw.transactions⟩ transaction (List.mem_of_getElem? hat)
    exact h.refused_reachTransaction htx hfails

/-! ### Whole items -/

variable {item item' : Item} {w : PlainItem}

/-- A visit refused anywhere in a tree has lent out the nodes down to where it was refused. -/
theorem Exclusive.refused (h : visit.Exclusive target) (hitem : item.Holds w)
    (hrun : visit.reach place item = .error e item') :
    item.Refused (place.route item ++ target) e item' := by
  cases hitem with
  | block hholds =>
    obtain ⟨block', hfails, rfl⟩ := Access.mapState_eq_error hrun
    exact h.refused_reachBlock hholds hfails
  | transaction hholds =>
    obtain ⟨transaction', hfails, rfl⟩ := Access.mapState_eq_error hrun
    exact .of_node (h.refused_reachTransaction hholds hfails) (fun _ ↦ rfl) (fun _ ↦ rfl) (by simp)
  | input hholds =>
    obtain ⟨input', hfails, -⟩ := Access.mapState_eq_error hrun
    exact absurd hfails (h.input_ne_error hholds)
  | output hholds =>
    obtain ⟨output', hfails, -⟩ := Access.mapState_eq_error hrun
    exact absurd hfails (h.output_ne_error hholds)

theorem Exclusive.exists_makes (h : visit.Exclusive target) :
    ∃ (β : Type) (R : α → β → Prop) (alteration : Alteration β), visit.Makes R alteration := by
  cases h with
  | here h =>
    obtain ⟨β, R, alteration, hmakes, -⟩ := h.exists_alteration
    exact ⟨β, R, alteration, hmakes⟩
  | remove children index => exact ⟨_, _, _, makes_remove children index⟩

theorem Exclusive.exists_keepsOrder (h : visit.Exclusive target) :
    ∃ P : α → Prop, visit.KeepsOrder P := by
  cases h with
  | remove children index => exact ⟨_, keepsOrder_remove children index⟩
  | here h =>
    cases h with
    | found => exact ⟨_, keepsOrder_found⟩
    | set assignment => exact ⟨_, keepsOrder_set assignment⟩
    | headerEdit => exact ⟨_, keepsOrder_headerEdit⟩
    | add h => exact ⟨_, keepsOrder_add h.orderly⟩
    | put h => exact ⟨_, keepsOrder_put h.orderly⟩
    | clear children => exact ⟨_, keepsOrder_clear children⟩
    | invalidate => exact ⟨_, keepsOrder_invalidate⟩
    | serialize => exact ⟨_, keepsOrder_serialize⟩

/-- A refused edit leaves an item in order that holds the value it held. -/
theorem Exclusive.kept (h : visit.Exclusive target) (hitem : item.Holds w)
    (horderly : item.Orderly) (hrun : visit.reach place item = .error e item') :
    item'.Holds w ∧ item'.Orderly := by
  obtain ⟨β, R, alteration, hmakes⟩ := h.exists_makes
  obtain ⟨P, hkeeps⟩ := h.exists_keepsOrder
  refine ⟨?_, ?_⟩
  · obtain ⟨a, after, b, v', ha, -⟩ | ⟨absence, after, he, -, hholds⟩ :=
      hmakes.reach place item w hitem
    · rw [hrun] at ha
      contradiction
    · rw [hrun] at he
      injection he with _ hafter
      rwa [hafter]
  · have hkept := hkeeps.reach place item horderly
    rwa [hrun] at hkept

theorem Asks.answer_look?_congr {visit : Visit α} {inquiry : Inquiry α} (h : visit.Asks Eq inquiry)
    (hitem : item.Holds w) (hitem' : item'.Holds w) (place : Place) :
    (visit.look? place).answer item' = (visit.look? place).answer item :=
  (h.answer_look? hitem' place).trans (h.answer_look? hitem place).symm

end Visit

namespace Item

variable {item item' : Item} {v : PlainItem} {lent : List Step}

/-- The values are the same: whatever is asked at any place, of the whole or inside it, is answered
alike, and neither can be told from the other by comparing it with a third. -/
structure SameValue (item item' : Item) : Prop where
  bytes : ∀ place, (Visit.bytes.look? place).answer item' = (Visit.bytes.look? place).answer item
  length : ∀ place, (Visit.length.look? place).answer item' = (Visit.length.look? place).answer item
  report : ∀ place, (Visit.report.look? place).answer item' = (Visit.report.look? place).answer item
  field : ∀ field place, ((Visit.get field).look? place).answer item' =
    ((Visit.get field).look? place).answer item
  equal : ∀ other : Item, other.Reachable → ∀ place,
    ((Visit.against other).look? place).answer item' =
        ((Visit.against other).look? place).answer item ∧
      ((Visit.against item').look? place).answer other =
        ((Visit.against item).look? place).answer other

/-- Items that hold one value cannot be told apart by what they answer. -/
theorem Holds.sameValue (h : item.Holds v) (h' : item'.Holds v) : item.SameValue item' where
  bytes := Visit.asks_bytes.answer_look?_congr h h'
  length := Visit.asks_length.answer_look?_congr h h'
  report := Visit.asks_report.answer_look?_congr h h'
  field field := (Visit.asks_get field).answer_look?_congr h h'
  equal other hother place := by
    obtain ⟨w, hw⟩ := hother.holds
    exact ⟨(Visit.asks_against hw).answer_look?_congr h h' place,
      ((Visit.asks_against h').answer_look? hw place).trans
        ((Visit.asks_against h).answer_look? hw place).symm⟩

/-- Lending nodes out changes no configuration. -/
theorem LentAlong.config_eq (h : item.LentAlong lent item') (hkind : item.kind = item'.kind) :
    item'.config = item.config := by
  have hroot (node node' : AnyNode) (hbefore : item.at? [] = some node)
      (hafter : item'.at? [] = some node') : node'.config = node.config :=
    (h.onRoute [] List.nil_prefix node' hafter).2.2 node hbefore
  cases item with
  | block block =>
    obtain ⟨block', rfl, -, hheader, -⟩ := h.block block rfl
    rw [config, config, hheader]
  | transaction node =>
    cases item' with
    | transaction node' => exact hroot (.transaction node) (.transaction node') rfl rfl
    | block | input | output => contradiction
  | input node =>
    cases item' with
    | input node' => exact hroot (.input node) (.input node') rfl rfl
    | block | transaction | output => contradiction
  | output node =>
    cases item' with
    | output node' => exact hroot (.output node) (.output node') rfl rfl
    | block | transaction | input => contradiction

end Item

/-- An edit that is refused changes no value. It is refused for want of a child, or of a body in a
block, and has lent out the nodes on the way so far: they are parsed and have forgotten bytes and
hash, and so has a block the bytes of the whole, but its header and every other node that was there
are as before. If the item is to keep its bytes, the next writing makes the same bytes and caches
all of it again. -/
theorem Item.Reachable.same_value_of_refused {visit : Visit α} {target : List Step}
    (hvisit : visit.Exclusive target) {item item' : Item} (hitem : item.Reachable) {place : Place}
    {e : CodecError} (hrun : visit.reach place item = .error e item') :
    item.SameValue item' ∧
    (∃ lent, item.LentAlong lent item' ∧ item'.Refuses (place.route item ++ target) lent e) ∧
    (item.config.retain = true → ∃ raw item'', Visit.bytes.onItem.answer item = .ok raw ∧
      Visit.serialize.onItem item' = .ok raw item'' ∧ item''.copy? = some raw ∧
      item''.isCached = true ∧
      ∀ route node, item''.at? route = some node → node.cached = true) := by
  obtain ⟨v, hv⟩ := hitem.holds
  obtain ⟨hv', horderly⟩ := hvisit.kept hv hitem.orderly hrun
  obtain ⟨lent, hlent, hrefuses⟩ := hvisit.refused hv hrun
  refine ⟨hv.sameValue hv', ⟨lent, hlent, hrefuses⟩, fun hretain ↦ ?_⟩
  have hconfig := hlent.config_eq (hv.kind_eq.trans hv'.kind_eq.symm)
  obtain ⟨middle, item'', hserialize, hv'', hwritten⟩ := hv'.serialize horderly
  have hcopy := hwritten.kept (hconfig ▸ hretain)
  obtain ⟨hroot, hbelow⟩ := hv''.cached_of_copy? hcopy
  exact ⟨v.wire, item'', Visit.answer_bytes_onItem hv, hserialize, hcopy, hroot, hbelow⟩

/-- Nothing of a transaction is parsed when an output is to be taken out that it does not have. The
output that it has comes out of the parse cached, and writing makes the whole cached again. -/
theorem Item.Reachable.same_value_of_refused_remove :
    let part : Bytes := [5, 0, 0, 0, 0, 0, 0, 0, 0]
    let encoding : Bytes := [1, 0, 0, 0, 7, 0, 0, 0, 0, 1] ++ part ++ [0, 0, 0, 0]
    let place : Place := ⟨"a", none, none, none⟩
    let item := Item.transaction ⟨some encoding, true, .deferredRetain, none, none⟩
    let item' := Item.transaction ⟨none, false, .deferredRetain,
      some ⟨1, 7, [], [⟨some part, true, .deferredRetain, none, none⟩], 0⟩, none⟩
    item.Reachable ∧
      (Visit.remove .outputs 5).reach place item = .error (.indexOutOfBounds 5 1) item' ∧
      item.SameValue item' ∧ (∃ lent, item.LentAlong lent item') ∧
      ∃ item'', Visit.serialize.onItem item' = .ok encoding item'' ∧ item''.isCached = true := by
  intro part encoding place item item'
  have hmake : (Source.transaction encoding .deferredRetain).make = .ok item := by cbv
  have hitem : item.Reachable := Item.Reachable.of_make hmake
  have hrun : (Visit.remove .outputs 5).reach place item =
      .error (.indexOutOfBounds 5 1) item' := by cbv
  obtain ⟨hvalue, ⟨lent, hlent, -⟩, hkept⟩ := hitem.same_value_of_refused (.remove .outputs 5) hrun
  obtain ⟨raw, item'', hbytes, hserialize, -, hcached, -⟩ := hkept rfl
  have hencoding : Visit.bytes.onItem.answer item = .ok encoding := rfl
  obtain rfl : encoding = raw := Except.ok.inj (hencoding.symm.trans hbytes)
  exact ⟨hitem, hrun, hvalue, ⟨lent, hlent⟩, item'', hserialize, hcached⟩

end CoinWire
