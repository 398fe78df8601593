import Mathlib
import CoinWire.Proofs.Holding.Item
import CoinWire.Proofs.Staleness

/-!
# Moving children

Taking a child out of a list and appending one are edits of the node that has the list. The child
goes as it is, with all that is held of it, and no other child is touched; the node itself goes
stale. In the encoding of the container the encodings of the children lie one after the other behind
their number, so one part comes or goes there, and the number changes.
-/

namespace CoinWire

open AnyNode Holder Plain

variable {F V σ W α : Type}

/-! ## Lists of children -/

namespace Visit.Children

/-- The kind of value that has the list. -/
def owner : Children → ItemKind
  | .transactions => .block
  | .inputs => .transaction
  | .outputs => .transaction

/-- The kind of value that is in the list. -/
def kind : Children → ItemKind
  | .transactions => .transaction
  | .inputs => .input
  | .outputs => .output

/-- The way from the owner to the node that has the list among its fields. -/
def lender : Children → List Step
  | .transactions => [.body]
  | .inputs => []
  | .outputs => []

end Visit.Children

def TxFields.children? (fields : TxFields) : Visit.Children → Option (List Item)
  | .inputs => some (fields.inputs.map .input)
  | .outputs => some (fields.outputs.map .output)
  | .transactions => none

/-- Where a list begins in the encoding of its owner. -/
def TxFields.offset (fields : TxFields) : Visit.Children → Nat
  | .outputs => 8 + VarInt.lengthSize fields.inputs.length + Node.totalLength fields.inputs
  | _ => 8

def BodyFields.children? (fields : BodyFields) : Visit.Children → Option (List Item)
  | .transactions => some (fields.transactions.map .transaction)
  | _ => none

namespace Item

/-- The children in a list, as a look at it finds them. A block without a body has none. -/
def children? (children : Visit.Children) : Item → Option (List Item)
  | .block value =>
    match value.body with
    | some node => (Node.fields.answer node).toOption.bind fun fields ↦ fields.children? children
    | none => if children = .transactions then some [] else none
  | .transaction value =>
    (Node.fields.answer value).toOption.bind fun fields ↦ fields.children? children
  | _ => none

/-- Where a list of children begins in the encoding. -/
def offset (children : Visit.Children) : Item → Nat
  | .block _ => Header.size
  | .transaction value =>
    (Node.fields.answer value).toOption.elim 0 fun fields ↦ fields.offset children
  | _ => 0

/-- What a block without a body has to get before a transaction: an empty list and an empty
signature. -/
def newBody : Item → Bytes
  | .block value => if value.isHeaderOnly then [0, 0] else []
  | _ => []

/-- The encodings of the items, one after the other behind their number, make up the encoding with
`front` before and `back` after them. -/
def Spell (list : List Item) (front back encoding : Bytes) : Prop :=
  ∃ parts, List.Forall₂ (fun item part ↦ Visit.bytes.onItem.answer item = .ok part) list parts ∧
    encoding = front ++ VarInt.ofLength parts ++ parts.flatten ++ back

/-- One list of children was changed and nothing else. -/
structure Restocked (item : Item) (children : Visit.Children) (list list' : List Item)
    (item' : Item) : Prop where
  /-- The items are in the list with all that is held of them. -/
  found : item'.children? children = some list'
  others : ∀ other ≠ children, item'.children? other = item.children? other
  stale : ∃ node, item'.at? children.lender = some node ∧ node.Stale
  block : ∀ block, item = .block block → ∃ block', item' = .block block' ∧ block'.raw = none ∧
    block'.header = block.header
  /-- In the encoding the list is replaced at its place. -/
  bytes : ∃ front back encoding encoding', front.length = item.offset children ∧
    Visit.bytes.onItem.answer item = .ok encoding ∧
    Visit.bytes.onItem.answer item' = .ok encoding' ∧
    Spell list front back (encoding ++ item.newBody) ∧ Spell list' front back encoding'

end Item

theorem Item.Spell.append_front {list : List Item} {front back encoding : Bytes}
    (h : Item.Spell list front back encoding) (before : Bytes) :
    Item.Spell list (before ++ front) back (before ++ encoding) := by
  obtain ⟨parts, hparts, rfl⟩ := h
  exact ⟨parts, hparts, by simp only [List.append_assoc]⟩

theorem Item.Spell.length_eq {list : List Item} {front back encoding : Bytes}
    (h : Item.Spell list front back encoding) (hlist : ∀ item ∈ list, ∃ v, item.Holds v) :
    encoding.length = front.length + VarInt.lengthSize list.length + (list.map Item.length).sum +
      back.length := by
  obtain ⟨parts, hparts, rfl⟩ := h
  have hlengths : list.map Item.length = parts.map List.length := by
    induction hparts with
    | nil => rfl
    | @cons item part _ _ hpart _ ih =>
      obtain ⟨⟨v, hv⟩, hrest⟩ := List.forall_mem_cons.1 hlist
      rw [Visit.answer_bytes_onItem hv] at hpart
      injection hpart with hpart
      rw [List.map_cons, List.map_cons, ih hrest, hv.length_eq, hpart]
  rw [List.length_append, List.length_append, List.length_append, VarInt.length_ofLength,
    List.length_flatten, hlengths, hparts.length_eq]

/-- A list of nodes among the fields, as the items they are, and where it is in the encoding. -/
structure ChildList {F V : Type} [Plain V] [Holder F V]
    (lists : F → Visit.Children → Option (List Item)) (σ W : Type) [Plain W] [Holder σ W] where
  name : Visit.Children
  get : F → List σ
  set : List σ → F → F
  /-- The same value with other values in the list. -/
  put : List W → V → V
  item : σ → Item
  plainItem : W → PlainItem
  front : V → Bytes
  back : V → Bytes
  lists_name : ∀ fields, lists fields name = some ((get fields).map item)
  lists_set : ∀ nodes fields, lists (set nodes fields) name = some (nodes.map item)
  lists_other : ∀ nodes fields, ∀ other ≠ name, lists (set nodes fields) other = lists fields other
  holds_get : ∀ {fields v}, Holds fields v → ∃ ws, Holds (get fields) ws ∧ put ws v = v
  holds_set : ∀ {fields v nodes ws}, Holds fields v → Holds nodes ws →
    Holds (set nodes fields) (put ws v)
  holds_item : ∀ {node w}, Holds node w → (item node).Holds (plainItem w)
  wire_plainItem : ∀ w, (plainItem w).wire = wire w
  wire_put : ∀ ws v, wire (put ws v) =
    front v ++ VarInt.ofLength ws ++ ws.flatMap wire ++ back v
  /-- Where the list begins in the encoding. -/
  offset : F → Nat
  length_front : ∀ {fields v}, Holds fields v → (front v).length = offset fields

namespace ChildList

def inputs : ChildList TxFields.children? Input TxIn where
  name := .inputs
  get := TxFields.inputs
  set inputs fields := { fields with inputs }
  put inputs tx := { tx with inputs }
  item := .input
  plainItem := .input
  front tx := Bytes.ofUInt32 tx.version ++ Bytes.ofUInt32 tx.time
  back tx := VarInt.ofLength tx.outputs ++ tx.outputs.flatMap TxOut.wire ++
    Bytes.ofUInt32 tx.lockTime
  lists_name _ := rfl
  lists_set _ _ := rfl
  lists_other inputs fields other h := by
    cases other with
    | inputs => contradiction
    | _ => rfl
  holds_get {_ tx} h := ⟨tx.inputs, h.inputs, rfl⟩
  holds_set h hinputs := ⟨h.version, h.time, hinputs, h.outputs, h.lockTime⟩
  holds_item h := .input h
  wire_plainItem _ := rfl
  wire_put inputs tx := by
    simp [Plain.wire, Tx.wire]
  offset fields := fields.offset .inputs
  length_front _ := by
    simp [TxFields.offset]

def outputs : ChildList TxFields.children? Output TxOut where
  name := .outputs
  get := TxFields.outputs
  set outputs fields := { fields with outputs }
  put outputs tx := { tx with outputs }
  item := .output
  plainItem := .output
  front tx := Bytes.ofUInt32 tx.version ++ Bytes.ofUInt32 tx.time ++
    VarInt.ofLength tx.inputs ++ tx.inputs.flatMap TxIn.wire
  back tx := Bytes.ofUInt32 tx.lockTime
  lists_name _ := rfl
  lists_set _ _ := rfl
  lists_other outputs fields other h := by
    cases other with
    | outputs => contradiction
    | _ => rfl
  holds_get {_ tx} h := ⟨tx.outputs, h.outputs, rfl⟩
  holds_set h houtputs := ⟨h.version, h.time, h.inputs, houtputs, h.lockTime⟩
  holds_item h := .output h
  wire_plainItem _ := rfl
  wire_put outputs tx := by
    simp [Plain.wire, Tx.wire]
  offset fields := fields.offset .outputs
  length_front {fields tx} h := by
    have hinputs : Node.totalLength fields.inputs = (tx.inputs.flatMap TxIn.wire).length :=
      Node.totalLength_eq h.inputs
    have hnumber : fields.inputs.length = tx.inputs.length := h.inputs.length_eq
    simp only [TxFields.offset, hinputs, hnumber, List.length_append, Bytes.length_ofUInt32,
      VarInt.length_ofLength]

def transactions : ChildList BodyFields.children? Transaction Tx where
  name := .transactions
  get := BodyFields.transactions
  set transactions fields := { fields with transactions }
  put transactions body := { body with transactions }
  item := .transaction
  plainItem := .transaction
  front _ := []
  back body := body.signature.counted
  lists_name _ := rfl
  lists_set _ _ := rfl
  lists_other transactions fields other h := by
    cases other with
    | transactions => contradiction
    | _ => rfl
  holds_get {_ body} h := ⟨body.transactions, h.transactions, rfl⟩
  holds_set h htransactions := ⟨htransactions, h.signature⟩
  holds_item h := .transaction h
  wire_plainItem _ := rfl
  wire_put transactions body := by
    simp [Plain.wire, Body.wire]
  offset _ := 0
  length_front _ := rfl

variable [Plain V] [Holder F V] [Plain W] [Holder σ W]
  {lists : F → Visit.Children → Option (List Item)} (children : ChildList lists σ W)

theorem exists_holds {nodes : List σ} {ws : List W} (h : Holds nodes ws) :
    ∀ item ∈ nodes.map children.item, ∃ v, item.Holds v := by
  intro item hitem
  obtain ⟨node, hnode, rfl⟩ := List.mem_map.1 hitem
  obtain ⟨w, hw⟩ := exists_forall₂_iff.1 ⟨ws, h⟩ node hnode
  exact ⟨_, children.holds_item hw⟩

/-- The nodes are the items in the list, and the values they hold are spelled there. -/
theorem spell {nodes : List σ} {ws : List W} (h : Holds nodes ws) (v : V) :
    Item.Spell (nodes.map children.item) (children.front v) (children.back v)
      (wire (children.put ws v)) := by
  refine ⟨ws.map wire, ?_, ?_⟩
  · rw [List.forall₂_map_left_iff, List.forall₂_map_right_iff]
    apply h.imp
    intro node w hnode
    rw [Visit.answer_bytes_onItem (children.holds_item hnode), children.wire_plainItem]
  · rw [children.wire_put, VarInt.ofLength, VarInt.ofLength, List.length_map, List.flatMap_def]

/-- An edit of the list alone. The node goes stale and holds the value with the new list. -/
theorem edit [Layout F] [LawfulLayout F V] {node : Node F} {v : V} {fields : F}
    (hfields : Node.fields node = .ok fields (node.putFields fields)) (hholds : Holds fields v)
    {access : Access (List σ) α} {a : α} {nodes' : List σ} {ws' : List W}
    (haccess : access (children.get fields) = .ok a nodes') (hnodes' : Holds nodes' ws') :
    Node.edit (Access.focus children.get children.set access) node =
        .ok a (node.stale.putFields (children.set nodes' fields)) ∧
      Holds (node.stale.putFields (children.set nodes' fields)) (children.put ws' v) := by
  refine ⟨Node.edit_ok hfields ?_, Node.holds_stale (children.holds_set hholds hnodes')⟩
  rw [Access.focus, haccess]
  rfl

end ChildList

/-! ## Transactions -/

/-- A list of a transaction's children is edited. -/
theorem Transaction.restocked [Plain W] [Holder σ W] (children : ChildList TxFields.children? σ W)
    (hname : children.name.lender = [])
    (hoffset : ∀ fields, children.offset fields = fields.offset children.name)
    {transaction : Transaction} {tx : Tx} {fields : TxFields}
    (h : Holds transaction tx)
    (hfields : Node.fields transaction = .ok fields (transaction.putFields fields))
    {access : Access (List σ) α} {a : α} {nodes' : List σ} {ws' : List W}
    (haccess : access (children.get fields) = .ok a nodes') (hnodes' : Holds nodes' ws') :
    ∃ transaction', Node.edit (Access.focus children.get children.set access) transaction =
        .ok a transaction' ∧ (∃ tx', Item.Holds (.transaction transaction') tx') ∧
      Item.Restocked (.transaction transaction) children.name
        ((children.get fields).map children.item) (nodes'.map children.item)
        (.transaction transaction') := by
  have hholds : Holds fields tx := Node.holds_fields h hfields
  obtain ⟨hedit, hafter⟩ := children.edit hfields hholds haccess hnodes'
  have hitem : Item.Holds (.transaction transaction) (.transaction tx) := .transaction h
  have hitem' : Item.Holds (.transaction _) (.transaction (children.put ws' tx)) :=
    .transaction hafter
  obtain ⟨ws, hws, hput⟩ := children.holds_get hholds
  have hspell := children.spell hws tx
  rw [hput] at hspell
  refine ⟨_, hedit, ⟨_, hitem'⟩, children.lists_set nodes' fields, ?_, ?_, by simp, ?_⟩
  · intro other hother
    rw [Item.children?, Item.children?, Access.answer_eq_ok hfields]
    exact children.lists_other nodes' fields other hother
  · rw [hname]
    exact ⟨_, rfl, wraps_transaction.stale⟩
  · refine ⟨children.front tx, children.back tx, tx.wire, (children.put ws' tx).wire, ?_,
      Visit.answer_bytes_onItem hitem, Visit.answer_bytes_onItem hitem', ?_,
      children.spell hnodes' tx⟩
    · rw [children.length_front hholds, hoffset, Item.offset, Access.answer_eq_ok hfields]
      rfl
    · exact (List.append_nil tx.wire).symm ▸ hspell

/-! ## Blocks -/

namespace Block

variable {block : Block} {v : PlainBlock}

/-- The body that a block has before a transaction is added, be it a new one. -/
theorem Holds.exists_body (h : block.Holds v) :
    ∃ body w, block.withBody.body = some body ∧ Holder.Holds body w ∧
      v.wire ++ (Item.block block).newBody = v.header.wire ++ Body.wire w ∧
      ∀ fields, Node.fields.answer body = .ok fields →
        ∀ children, (Item.block block).children? children = fields.children? children := by
  obtain ⟨header, body, raw⟩ := block
  obtain ⟨plainHeader, plainBody⟩ := v
  obtain ⟨hnone, hnone'⟩ | ⟨node, w, hnode, hw, hholds⟩ := h.body_cases
  · obtain rfl : body = none := hnone
    obtain rfl : plainBody = none := hnone'
    have hempty : Holder.Holds (⟨[], []⟩ : BodyFields) (⟨[], []⟩ : Body) := ⟨.nil, rfl⟩
    refine ⟨_, ⟨[], []⟩, rfl, Node.holds_ofFields hempty _, ?_, ?_⟩
    · rw [PlainBlock.wire, Option.map_none, Option.getD_none, List.append_nil]
      rfl
    · rintro _ ⟨⟩ children
      cases children <;> rfl
  · obtain rfl : body = some node := hnode
    obtain rfl : plainBody = some w := hw
    refine ⟨node, w, rfl, hholds, List.append_nil _, ?_⟩
    intro fields hfields children
    rw [Item.children?]
    dsimp only
    rw [hfields]
    rfl

/-- The list of a block's transactions is edited, after it was given a body if it had none. -/
theorem Holds.restocked (h : block.Holds v) {body : Node BodyFields} {w : Body}
    {fields : BodyFields} (hbody : block.withBody.body = some body) (hholds : Holder.Holds body w)
    (hwire : v.wire ++ (Item.block block).newBody = v.header.wire ++ w.wire)
    (hchildren : ∀ children, (Item.block block).children? children = fields.children? children)
    (hfields : Node.fields body = .ok fields (body.putFields fields))
    {access : Access (List Transaction) α} {a : α} {nodes' : List Transaction} {ws' : List Tx}
    (haccess : access fields.transactions = .ok a nodes') (hnodes' : Holder.Holds nodes' ws') :
    ∃ block', Block.editBody (BodyFields.onTransactions access) block.withBody = .ok a block' ∧
      (∃ v', Item.Holds (.block block') v') ∧
      Item.Restocked (.block block) .transactions (fields.transactions.map .transaction)
        (nodes'.map .transaction) (.block block') := by
  have hholds' : BodyFields.Holds fields w := Node.holds_fields hholds hfields
  obtain ⟨hedit, hafter⟩ := ChildList.transactions.edit hfields hholds' haccess hnodes'
  have hheader : block.withBody.header = block.header := by
    unfold Block.withBody
    split_ifs <;> rfl
  have hitem : Item.Holds (.block block) (.block v) := .block h
  have hitem' : Item.Holds (.block _) (.block _) := .block (h.replaceBody hafter)
  obtain ⟨ws, hws, hput⟩ := ChildList.transactions.holds_get hholds'
  have hspell := ChildList.transactions.spell hws w
  rw [hput] at hspell
  refine ⟨_, ?_, ⟨_, hitem'⟩, rfl, ?_, ⟨_, rfl, wraps_body.stale⟩, ?_, ?_⟩
  · have hedit' : Node.edit (BodyFields.onTransactions access) body = .ok a _ := hedit
    rw [editBody_apply, onBody]
    dsimp only
    rw [hbody, hheader]
    dsimp only
    rw [hedit']
    rfl
  · intro other hother
    rw [hchildren]
    exact ChildList.transactions.lists_other nodes' fields other hother
  · rintro _ ⟨⟩
    exact ⟨_, rfl, rfl, rfl⟩
  · refine ⟨v.header.wire ++ ChildList.transactions.front w, ChildList.transactions.back w,
      v.wire, v.header.wire ++ _, ?_, Visit.answer_bytes_onItem hitem,
      Visit.answer_bytes_onItem hitem', ?_,
      (ChildList.transactions.spell hnodes' w).append_front v.header.wire⟩
    · rw [List.length_append, Header.length_wire]
      rfl
    · rw [hwire]
      exact hspell.append_front v.header.wire

end Block

/-! ## Containers -/

namespace Access

theorem detach_ok {states : List σ} {index : Nat} {state : σ} (h : states[index]? = some state) :
    detach index states = .ok state (states.eraseIdx index) := by
  rw [detach, h]

end Access

namespace Item

theorem Restocked.length_eq {children : Visit.Children} {list list' : List Item}
    {item item' : Item} (h : item.Restocked children list list' item')
    (hitem : ∃ v, item.Holds v) (hitem' : ∃ v, item'.Holds v)
    (hlist : ∀ child ∈ list, ∃ v, child.Holds v) (hlist' : ∀ child ∈ list', ∃ v, child.Holds v) :
    item'.length + VarInt.lengthSize list.length + (list.map length).sum =
      item.length + item.newBody.length + VarInt.lengthSize list'.length +
        (list'.map length).sum := by
  obtain ⟨v, hv⟩ := hitem
  obtain ⟨v', hv'⟩ := hitem'
  obtain ⟨front, back, encoding, encoding', -, hbytes, hbytes', hspell, hspell'⟩ := h.bytes
  rw [Visit.answer_bytes_onItem hv] at hbytes
  rw [Visit.answer_bytes_onItem hv'] at hbytes'
  injection hbytes with hbytes
  injection hbytes' with hbytes'
  have hlength := hspell.length_eq hlist
  have hlength' := hspell'.length_eq hlist'
  rw [List.length_append] at hlength
  rw [hv.length_eq, hv'.length_eq, hbytes, hbytes']
  omega

/-- Any child in the list can be taken out of it, and any child of the kind can be appended. -/
structure Stocks (item : Item) (children : Visit.Children) (list : List Item) : Prop where
  found : item.children? children = some list
  holds : ∀ child ∈ list, ∃ v, child.Holds v
  remove : ∀ index child, list[index]? = some child → ∃ item',
    (Visit.remove children index).onItem item = .ok (some child) item' ∧
      (∃ v, item'.Holds v) ∧ item.Restocked children list (list.eraseIdx index) item'
  add : ∀ child v, child.Holds v → child.kind = children.kind → ∃ item',
    (Visit.add child).onItem item = .ok .done item' ∧
      (∃ v', item'.Holds v') ∧ item.Restocked children list (list ++ [child]) item'

end Item

/-- A block that has a child has a body. -/
theorem Item.block_isHeaderOnly {block : Block} {children : Visit.Children} {list : List Item}
    (h : (Item.block block).children? children = some list) {index : Nat} {child : Item}
    (hchild : list[index]? = some child) : block.isHeaderOnly = false := by
  obtain ⟨header, _ | body, raw⟩ := block
  · rw [Item.children?] at h
    dsimp only at h
    split_ifs at h
    injection h with h
    rw [← h] at hchild
    contradiction
  · rfl

theorem Item.newBody_eq_nil {item : Item} {children : Visit.Children} {list : List Item}
    (h : item.children? children = some list) {index : Nat} {child : Item}
    (hchild : list[index]? = some child) : item.newBody = [] := by
  cases item with
  | block block => rw [newBody, block_isHeaderOnly h hchild]; rfl
  | transaction | input | output => rfl

theorem Block.withBody_eq_self {block : Block} (h : block.isHeaderOnly = false) :
    block.withBody = block := by
  rw [withBody, h]
  rfl

/-- A list of a transaction's children, whose operations are the edits of that list. -/
theorem Transaction.stocks [Plain W] [Holder σ W] (children : ChildList TxFields.children? σ W)
    (hname : children.name.lender = [])
    (hoffset : ∀ fields, children.offset fields = fields.offset children.name)
    (hremove : ∀ index, (Visit.remove children.name index).transaction = do
      return some (children.item
        (← Node.edit (Access.focus children.get children.set (Access.detach index)))))
    (hadd : ∀ node, (Visit.add (children.item node)).transaction =
      Visit.plainly (Node.edit (Access.focus children.get children.set (Access.append node))))
    (hkind : ∀ item v, item.Holds v → item.kind = children.name.kind →
      ∃ node w, item = children.item node ∧ Holds node w)
    {transaction : Transaction} {tx : Tx} (h : Holds transaction tx) :
    ∃ list, Item.Stocks (.transaction transaction) children.name list := by
  obtain ⟨fields, hfields, -⟩ := Node.fields_eq h
  obtain ⟨ws, hws, -⟩ := children.holds_get (Node.holds_fields h hfields)
  refine ⟨(children.get fields).map children.item, ?_, children.exists_holds hws, ?_, ?_⟩
  · rw [Item.children?, Access.answer_eq_ok hfields]
    exact children.lists_name fields
  · intro index child hchild
    rw [List.getElem?_map] at hchild
    obtain ⟨node, hnode, rfl⟩ := Option.map_eq_some_iff.1 hchild
    obtain ⟨transaction', hedit, hholds, hrestocked⟩ := Transaction.restocked children hname
      hoffset h hfields (Access.detach_ok hnode) (forall₂_eraseIdx hws index)
    refine ⟨.transaction transaction', ?_, hholds, ?_⟩
    · rw [Visit.onItem, hremove, Access.bind_apply, hedit]
      rfl
    · rwa [List.eraseIdx_map]
  · intro child v hv hchild
    obtain ⟨node, w, rfl, hw⟩ := hkind child v hv hchild
    have happend : Access.append node (children.get fields) =
      .ok () (children.get fields ++ [node]) := rfl
    obtain ⟨transaction', hedit, hholds, hrestocked⟩ := Transaction.restocked children hname
      hoffset h hfields happend (List.rel_append hws (.cons hw .nil))
    refine ⟨.transaction transaction', ?_, hholds, ?_⟩
    · rw [Visit.onItem, hadd, Visit.plainly_ok hedit]
      rfl
    · rwa [List.map_append] at hrestocked

/-- The list of a block's transactions. A block without a body has none to be taken out, and gets a
body when one is added. -/
theorem Block.stocks {block : Block} {v : PlainBlock} (h : block.Holds v) :
    ∃ list, Item.Stocks (.block block) .transactions list := by
  obtain ⟨body, w, hbody, hholds, hwire, hchildren⟩ := h.exists_body
  obtain ⟨fields, hfields, -⟩ := Node.fields_eq hholds
  have hws := (Node.holds_fields hholds hfields).transactions
  have hfound := hchildren fields (Access.answer_eq_ok hfields)
  refine ⟨fields.transactions.map Item.transaction, hfound .transactions,
    ChildList.transactions.exists_holds hws, ?_, ?_⟩
  · intro index child hchild
    obtain ⟨node, hnode, rfl⟩ := Option.map_eq_some_iff.1 (List.getElem?_map ▸ hchild)
    obtain ⟨block', hedit, hholds', hrestocked⟩ := h.restocked hbody hholds hwire hfound hfields
      (Access.detach_ok hnode) (forall₂_eraseIdx hws index)
    rw [Block.withBody_eq_self (Item.block_isHeaderOnly (hfound .transactions) hchild)] at hedit
    refine ⟨.block block', ?_, hholds', ?_⟩
    · have hremove : Block.removeTransaction index block = .ok node block' := hedit
      change Access.mapState Item.block ((do
        return some (Item.transaction (← Block.removeTransaction index))) block) = _
      rw [Access.bind_apply, hremove]
      rfl
    · rwa [List.eraseIdx_map]
  · intro child v' hv' hchild
    cases hv' with
    | @transaction node tx hnode =>
      have happend : Access.append node fields.transactions =
        .ok () (fields.transactions ++ [node]) := rfl
      obtain ⟨block', hedit, hholds', hrestocked⟩ := h.restocked hbody hholds hwire hfound hfields
        happend (List.rel_append hws (.cons hnode .nil))
      refine ⟨.block block', ?_, hholds', ?_⟩
      · have hadd : Block.addTransaction node block = .ok () block' := hedit
        change Access.mapState Item.block (Visit.plainly (Block.addTransaction node) block) = _
        rw [Visit.plainly_ok hadd]
        rfl
      · rwa [List.map_append] at hrestocked
    | block | input | output => contradiction

namespace Item

theorem Holds.stocks {item : Item} {v : PlainItem} (h : item.Holds v) {children : Visit.Children}
    (howner : item.kind = children.owner) : ∃ list, item.Stocks children list := by
  cases h with
  | @block block v h =>
    cases children with
    | transactions => exact Block.stocks h
    | inputs | outputs => contradiction
  | @transaction transaction tx h =>
    cases children with
    | transactions => contradiction
    | inputs =>
      refine Transaction.stocks .inputs rfl (fun _ ↦ rfl) (fun _ ↦ rfl) (fun _ ↦ rfl) ?_ h
      rintro _ _ (_ | _ | hinput | _) hkind
      · contradiction
      · contradiction
      · exact ⟨_, _, rfl, hinput⟩
      · contradiction
    | outputs =>
      refine Transaction.stocks .outputs rfl (fun _ ↦ rfl) (fun _ ↦ rfl) (fun _ ↦ rfl) ?_ h
      rintro _ _ (_ | _ | _ | houtput) hkind
      · contradiction
      · contradiction
      · contradiction
      · exact ⟨_, _, rfl, houtput⟩
  | input | output => cases children <;> contradiction

/-- A child is moved as it is, whatever is known of it and wherever it comes from. -/
theorem Reachable.moves {item : Item} (hitem : item.Reachable) {children : Visit.Children}
    (howner : item.kind = children.owner) :
    ∃ list, item.children? children = some list ∧
      (∀ index child, list[index]? = some child → ∃ item',
        (Visit.remove children index).onItem item = .ok (some child) item' ∧
          item.Restocked children list (list.eraseIdx index) item' ∧
          (item'.length : ℤ) = item.length - child.length +
            (VarInt.lengthSize (list.length - 1) - VarInt.lengthSize list.length)) ∧
      ∀ child : Item, child.Reachable → child.kind = children.kind → ∃ item',
        (Visit.add child).onItem item = .ok .done item' ∧
          item.Restocked children list (list ++ [child]) item' ∧
          (item'.length : ℤ) = item.length + item.newBody.length + child.length +
            (VarInt.lengthSize (list.length + 1) - VarInt.lengthSize list.length) := by
  obtain ⟨v, hv⟩ := hitem.holds
  obtain ⟨list, hlist⟩ := hv.stocks howner
  refine ⟨list, hlist.found, ?_, ?_⟩
  · intro index child hchild
    obtain ⟨item', hremove, hholds, hrestocked⟩ := hlist.remove index child hchild
    refine ⟨item', hremove, hrestocked, ?_⟩
    obtain ⟨hlt, hget⟩ := List.getElem?_eq_some_iff.1 hchild
    have hlength := hrestocked.length_eq ⟨v, hv⟩ hholds hlist.holds fun child hmem ↦
      hlist.holds child (List.mem_of_mem_eraseIdx hmem)
    have hsum := List.add_sum_eraseIdx (l := list.map length) (i := index)
      (by rwa [List.length_map]) fun a _ ↦ AddCommute.all _ a
    rw [List.getElem_map, hget, List.eraseIdx_map] at hsum
    rw [List.length_eraseIdx_of_lt hlt] at hlength
    rw [newBody_eq_nil hlist.found hchild, List.length_nil] at hlength
    omega
  · intro child hchild hkind
    obtain ⟨w, hw⟩ := hchild.holds
    obtain ⟨item', hadd, hholds, hrestocked⟩ := hlist.add child w hw hkind
    refine ⟨item', hadd, hrestocked, ?_⟩
    have hholds' : ∀ other ∈ list ++ [child], ∃ v, other.Holds v :=
      List.forall_mem_append.2 ⟨hlist.holds, List.forall_mem_singleton.2 ⟨w, hw⟩⟩
    have hlength := hrestocked.length_eq ⟨v, hv⟩ hholds hlist.holds hholds'
    rw [List.map_append, List.sum_append, List.map_singleton, List.sum_singleton,
      List.length_append, List.length_singleton] at hlength
    omega

/-- An output is built and appended to a transaction that keeps one it was decoded with, and the
first is taken out again, as it was decoded. -/
theorem Reachable.moves_outputs :
    let part : Bytes := [5, 0, 0, 0, 0, 0, 0, 0, 0]
    let encoding : Bytes := [1, 0, 0, 0, 7, 0, 0, 0, 0, 1] ++ part ++ [0, 0, 0, 0]
    let item := Item.transaction ⟨some encoding, true, .deferredRetain, none, none⟩
    let held := Item.output ⟨some part, true, .deferredRetain, none, none⟩
    let child := Item.output (Output.new 6 [])
    item.Reachable ∧ item.kind = Visit.Children.outputs.owner ∧ child.Reachable ∧
      item.length = 23 ∧
      (∃ item', (Visit.remove .outputs 0).onItem item = .ok (some held) item' ∧
        item.Restocked .outputs [held] [] item' ∧ item'.length = 14) ∧
      ∃ item', (Visit.add child).onItem item = .ok .done item' ∧
        item.Restocked .outputs [held] [held, child] item' ∧ item'.length = 32 := by
  intro part encoding item held child
  have hitem : item.Reachable :=
    @Reachable.of_make (.transaction encoding .deferredRetain) _ (by cbv)
  have hchild : child.Reachable := @Reachable.of_make (.newOutput 6 []) _ rfl
  have hchildren : item.children? .outputs = some [held] := by cbv
  obtain ⟨list, hlist, hremove, hadd⟩ := @Reachable.moves item hitem .outputs rfl
  obtain rfl : [held] = list := Option.some.inj (hchildren.symm.trans hlist)
  refine ⟨hitem, rfl, hchild, rfl, ?_, ?_⟩
  · obtain ⟨item', hanswer, hrestocked, hlength⟩ := hremove 0 held rfl
    refine ⟨item', hanswer, hrestocked, ?_⟩
    have hsizes : (item'.length : ℤ) = 23 - 9 + (1 - 1) := hlength
    omega
  · obtain ⟨item', hanswer, hrestocked, hlength⟩ := hadd child hchild rfl
    refine ⟨item', hanswer, hrestocked, ?_⟩
    have hsizes : (item'.length : ℤ) = 23 + 0 + 9 + (1 - 1) := hlength
    omega

end Item

end CoinWire
