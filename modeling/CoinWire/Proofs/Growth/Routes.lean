import Mathlib
import CoinWire.Proofs.Growth.Item
import CoinWire.Proofs.Reachable
import CoinWire.Proofs.Routes

/-!
# Growth along routes

A node that was there is there after its tree has grown, at the same place, with the same bytes and
the same mark of what is cached. If the growth was sparing, nothing is parsed below a cached node
that was not parsed before. One step of a route is the growth of one node's fields; by induction on
the route the same is known of all nodes below.
-/

namespace CoinWire

variable {sparing : Bool}

namespace AnyNode

theorem at?_append (route rest : List Step) (node : AnyNode) :
    node.at? (route ++ rest) = (node.at? route).bind (at? rest) := by
  induction route generalizing node with
  | nil => rfl
  | cons step route ih =>
    rw [List.cons_append, at?, at?, Option.bind_assoc]
    exact Option.bind_congr fun child _ ↦ ih child

end AnyNode

/-! ## What is below a node -/

/-- What a step leads to from a transaction is one of its inputs or outputs. -/
theorem TxFields.mem_of_child? {fields : TxFields} {step : Step} {child : AnyNode}
    (h : fields.child? step = some child) :
    (∃ input ∈ fields.inputs, child = .input input) ∨
      ∃ output ∈ fields.outputs, child = .output output := by
  cases step with
  | input index =>
    obtain ⟨input, hinput, rfl⟩ := Option.map_eq_some_iff.1 h
    exact .inl ⟨input, List.mem_of_getElem? hinput, rfl⟩
  | output index =>
    obtain ⟨output, houtput, rfl⟩ := Option.map_eq_some_iff.1 h
    exact .inr ⟨output, List.mem_of_getElem? houtput, rfl⟩
  | header | body | transaction => contradiction

/-- What a step leads to from a body is one of its transactions. -/
theorem BodyFields.mem_of_child? {fields : BodyFields} {step : Step} {child : AnyNode}
    (h : fields.child? step = some child) :
    ∃ transaction ∈ fields.transactions, child = .transaction transaction := by
  cases step with
  | transaction index =>
    obtain ⟨transaction, htransaction, rfl⟩ := Option.map_eq_some_iff.1 h
    exact ⟨transaction, List.mem_of_getElem? htransaction, rfl⟩
  | header | body | input | output => contradiction

namespace AnyNode

variable {node child found : AnyNode} {encoding : Bytes} {step : Step} {route : List Step}

/-- A child of a node that holds a value holds one too, and it is cached if the node is. -/
theorem Encodes.child? (h : node.Encodes encoding) (hchild : node.child? step = some child) :
    (∃ part, child.Encodes part) ∧ (node.cached = true → child.cached = true) := by
  cases h with
  | @transaction node tx h =>
    obtain ⟨fields, hparsed, hchild⟩ := Option.bind_eq_some_iff.1 hchild
    have hfields : TxFields.Holds fields tx := Node.Holds.parsed h fields hparsed
    have hcached (hnode : node.cached = true) :
        Holder.Cached fields.inputs ∧ Holder.Cached fields.outputs :=
      (Node.Holds.cached h hnode).2 fields hparsed
    obtain ⟨input, hmem, rfl⟩ | ⟨output, hmem, rfl⟩ := TxFields.mem_of_child? hchild
    · obtain ⟨v, hv⟩ := exists_forall₂_iff.1 ⟨_, hfields.inputs⟩ input hmem
      exact ⟨⟨_, .input hv⟩, fun hnode ↦ (hcached hnode).1 input hmem⟩
    · obtain ⟨v, hv⟩ := exists_forall₂_iff.1 ⟨_, hfields.outputs⟩ output hmem
      exact ⟨⟨_, .output hv⟩, fun hnode ↦ (hcached hnode).2 output hmem⟩
  | @body node body h =>
    obtain ⟨fields, hparsed, hchild⟩ := Option.bind_eq_some_iff.1 hchild
    have hfields : BodyFields.Holds fields body := Node.Holds.parsed h fields hparsed
    have hcached (hnode : node.cached = true) : Holder.Cached fields.transactions :=
      (Node.Holds.cached h hnode).2 fields hparsed
    obtain ⟨transaction, hmem, rfl⟩ := BodyFields.mem_of_child? hchild
    obtain ⟨v, hv⟩ := exists_forall₂_iff.1 ⟨_, hfields.transactions⟩ transaction hmem
    exact ⟨⟨_, .transaction hv⟩, fun hnode ↦ hcached hnode transaction hmem⟩
  | header | input | output => contradiction

/-- Every node below holds a value, and all below a cached node is cached. -/
theorem Encodes.at? (h : node.Encodes encoding) (hfound : node.at? route = some found) :
    (∃ part, found.Encodes part) ∧ (node.cached = true → found.cached = true) := by
  induction route generalizing node encoding with
  | nil =>
    injection hfound with hfound
    subst hfound
    exact ⟨⟨encoding, h⟩, id⟩
  | cons step route ih =>
    obtain ⟨child, hchild, hfound⟩ := Option.bind_eq_some_iff.1 hfound
    obtain ⟨⟨part, hpart⟩, hcached⟩ := h.child? hchild
    obtain ⟨hencodes, hcachedFound⟩ := ih hpart hfound
    exact ⟨hencodes, hcachedFound ∘ hcached⟩

end AnyNode

theorem Item.Holds.exists_encodes {item : Item} {v : PlainItem} (h : item.Holds v)
    {route : List Step} {node : AnyNode} (hnode : item.at? route = some node) :
    ∃ encoding, node.Encodes encoding := by
  cases h with
  | @block block v h =>
    cases route with
    | nil => contradiction
    | cons step route =>
      obtain ⟨part, hpart, hnode⟩ := Option.bind_eq_some_iff.1 hnode
      have hencodes : ∃ encoding, part.Encodes encoding := by
        cases step with
        | header =>
          injection hpart with hpart
          rw [← hpart]
          exact ⟨_, .header h.header⟩
        | body =>
          obtain ⟨body, hbody, rfl⟩ := Option.map_eq_some_iff.1 hpart
          obtain ⟨hnone, -⟩ | ⟨body', w, hbody', -, hholds⟩ := h.body_cases
          · rw [hnone] at hbody
            contradiction
          · obtain rfl : body' = body := Option.some.inj (hbody'.symm.trans hbody)
            exact ⟨_, .body hholds⟩
        | transaction | input | output => contradiction
      obtain ⟨encoding, hencodes⟩ := hencodes
      exact (hencodes.at? hnode).1
  | transaction h => exact ((AnyNode.Encodes.transaction h).at? hnode).1
  | input h => exact ((AnyNode.Encodes.input h).at? hnode).1
  | output h => exact ((AnyNode.Encodes.output h).at? hnode).1

/-! ## Nodes of any kind -/

namespace AnyNode

/-- Growth of nodes of one kind. -/
inductive Grows (sparing : Bool) : AnyNode → AnyNode → Prop where
  | header {node node' : Node Header} (h : Grown.Grows sparing node node') :
    Grows sparing (header node) (header node')
  | body {node node' : Node BodyFields} (h : Grown.Grows sparing node node') :
    Grows sparing (body node) (body node')
  | transaction {node node' : Transaction} (h : Grown.Grows sparing node node') :
    Grows sparing (transaction node) (transaction node')
  | input {node node' : Input} (h : Grown.Grows sparing node node') :
    Grows sparing (input node) (input node')
  | output {node node' : Output} (h : Grown.Grows sparing node node') :
    Grows sparing (output node) (output node')

variable {node node' child found : AnyNode} {step : Step} {route rest : List Step}

theorem Grows.raw (h : node.Grows sparing node') : node'.raw = node.raw := by
  cases h with
  | header h | body h | transaction h | input h | output h => exact Node.Grows.raw h

theorem Grows.cached (h : node.Grows sparing node') : node'.cached = node.cached := by
  cases h with
  | header h | body h | transaction h | input h | output h => exact Node.Grows.cached h

theorem Grows.isParsed (h : node.Grows sparing node') (hparsed : node.isParsed = true) :
    node'.isParsed = true := by
  cases h with
  | header h | body h | transaction h | input h | output h => exact Node.Grows.isParsed h hparsed

/-- A step that leads to a child leads to the same child, grown, from a grown node. -/
theorem Grows.child? (h : node.Grows sparing node') (hchild : node.child? step = some child) :
    ∃ child', node'.child? step = some child' ∧ child.Grows sparing child' := by
  cases h with
  | @transaction node node' h =>
    obtain ⟨fields, hparsed, hchild⟩ := Option.bind_eq_some_iff.1 hchild
    obtain ⟨fields', hparsed', hgrows⟩ := Node.Grows.fields h hparsed
    have hstep : (AnyNode.transaction node').child? step = fields'.child? step := by
      rw [AnyNode.child?, hparsed', Option.bind_some]
    rw [hstep]
    cases step with
    | input index =>
      obtain ⟨input, hinput, rfl⟩ := Option.map_eq_some_iff.1 hchild
      obtain ⟨input', hinput', hgrows'⟩ := Grown.exists_getElem? hgrows.inputs hinput
      exact ⟨.input input', by rw [TxFields.child?, hinput', Option.map_some], .input hgrows'⟩
    | output index =>
      obtain ⟨output, houtput, rfl⟩ := Option.map_eq_some_iff.1 hchild
      obtain ⟨output', houtput', hgrows'⟩ := Grown.exists_getElem? hgrows.outputs houtput
      exact ⟨.output output', by rw [TxFields.child?, houtput', Option.map_some], .output hgrows'⟩
    | header | body | transaction => contradiction
  | @body node node' h =>
    obtain ⟨fields, hparsed, hchild⟩ := Option.bind_eq_some_iff.1 hchild
    obtain ⟨fields', hparsed', hgrows⟩ := Node.Grows.fields h hparsed
    have hstep : (AnyNode.body node').child? step = fields'.child? step := by
      rw [AnyNode.child?, hparsed', Option.bind_some]
    rw [hstep]
    cases step with
    | transaction index =>
      obtain ⟨transaction, htransaction, rfl⟩ := Option.map_eq_some_iff.1 hchild
      obtain ⟨transaction', htransaction', hgrows'⟩ :=
        Grown.exists_getElem? hgrows.transactions htransaction
      exact ⟨.transaction transaction', by rw [BodyFields.child?, htransaction', Option.map_some],
        .transaction hgrows'⟩
    | header | body | input | output => contradiction
  | header | input | output => contradiction

/-- A node that was there is there after the growth, and has grown itself. -/
theorem Grows.at? (h : node.Grows sparing node') (hfound : node.at? route = some found) :
    ∃ found', node'.at? route = some found' ∧ found.Grows sparing found' := by
  induction route generalizing node node' with
  | nil =>
    injection hfound with hfound
    subst hfound
    exact ⟨node', rfl, h⟩
  | cons step route ih =>
    obtain ⟨child, hchild, hfound⟩ := Option.bind_eq_some_iff.1 hfound
    obtain ⟨child', hchild', hgrows⟩ := h.child? hchild
    obtain ⟨found', hfound', hgrowsFound⟩ := ih hgrows hfound
    exact ⟨found', by rw [AnyNode.at?, hchild', Option.bind_some, hfound'], hgrowsFound⟩

/-- A sparing growth leaves all below a cached node as it is. -/
theorem Grows.map_isParsed (h : node.Grows true node') (hcached : node.cached = true)
    (hraw : node.raw.isSome = true) (route : List Step) :
    (node'.at? route).map AnyNode.isParsed = (node.at? route).map AnyNode.isParsed := by
  obtain ⟨raw, hraw⟩ := Option.isSome_iff_exists.1 hraw
  have hsame {F : Type} [Layout F] [Grown F] {node node' : Node F}
      (hgrows : Grown.Grows true node node') (hmark : node.cached = true)
      (hbytes : node.raw = some raw) : node'.parsed = node.parsed := by
    have hcopy : node.cached? = some raw := by rw [Node.cached?, if_pos hmark, hbytes]
    exact Node.Grows.parsed_eq hgrows hcopy
  cases h with
  | header h | body h | transaction h | input h | output h =>
    have hparsed := hsame h hcached hraw
    cases route with
    | nil =>
      simp only [AnyNode.at?, Option.map_some, AnyNode.isParsed, Node.isParsed, hparsed]
    | cons step route =>
      simp only [AnyNode.at?, AnyNode.child?, hparsed]

end AnyNode

/-! ## Items -/

namespace Item

/-- All of the root is cached: of a block, both of its parts. -/
def isCached : Item → Bool
  | .block whole => whole.isCached
  | .transaction node => node.isCached
  | .input node => node.isCached
  | .output node => node.isCached

variable {item item' : Item} {route : List Step} {node : AnyNode}

theorem Grows.at? (h : item.Grows sparing item') (hnode : item.at? route = some node) :
    ∃ node', item'.at? route = some node' ∧ node.Grows sparing node' := by
  cases h with
  | @block block block' h =>
    cases route with
    | nil => contradiction
    | cons step route =>
      obtain ⟨part, hpart, hnode⟩ := Option.bind_eq_some_iff.1 hnode
      obtain ⟨part', hpart', hgrows⟩ : ∃ part', block'.child? step = some part' ∧
          part.Grows sparing part' := by
        cases step with
        | header =>
          injection hpart with hpart
          subst hpart
          exact ⟨_, rfl, .header h.header⟩
        | body =>
          obtain ⟨body, hbody, rfl⟩ := Option.map_eq_some_iff.1 hpart
          have hrel := h.body
          rw [hbody] at hrel
          cases hbody' : block'.body with
          | none =>
            rw [hbody'] at hrel
            contradiction
          | some body' =>
            rw [hbody'] at hrel
            cases hrel with
            | some hgrows => exact ⟨.body body', by rw [Block.child?, hbody']; rfl, .body hgrows⟩
        | transaction | input | output => contradiction
      obtain ⟨node', hnode', hgrows'⟩ := hgrows.at? hnode
      refine ⟨node', ?_, hgrows'⟩
      rw [Item.at?, AnyNode.follow, hpart', Option.bind_some, hnode']
  | transaction h => exact (AnyNode.Grows.transaction h).at? hnode
  | input h => exact (AnyNode.Grows.input h).at? hnode
  | output h => exact (AnyNode.Grows.output h).at? hnode

theorem at?_append (hnode : item.at? route = some node) (rest : List Step) :
    item.at? (route ++ rest) = node.at? rest := by
  cases item with
  | block block =>
    cases route with
    | nil => contradiction
    | cons step route =>
      obtain ⟨part, hpart, hnode⟩ := Option.bind_eq_some_iff.1 hnode
      rw [Item.at?, List.cons_append, AnyNode.follow, hpart, Option.bind_some, AnyNode.at?_append,
        hnode, Option.bind_some]
  | transaction | input | output =>
    change AnyNode.at? (route ++ rest) _ = _
    rw [AnyNode.at?_append]
    exact congrArg (Option.bind · (AnyNode.at? rest)) hnode

/-- An item that grows is cached just if it was. -/
theorem Grows.isCached (h : item.Grows sparing item') : item'.isCached = item.isCached := by
  cases h with
  | @block block block' h =>
    have hheader : block'.header.isCached = block.header.isCached := Node.Grows.cached h.header
    have hbody : block'.isBodyCached = block.isBodyCached := by
      have hrel := h.body
      unfold Block.isBodyCached
      revert hrel
      generalize block.body = body, block'.body = body'
      rintro (hgrows | _)
      · exact Node.Grows.cached hgrows
      · rfl
    rw [Item.isCached, Item.isCached, Block.isCached, Block.isCached, hheader, hbody]
  | transaction h | input h | output h => exact Node.Grows.cached h

/-- A cached node and all below it are parsed as far as before. -/
def Spares (item item' : Item) : Prop :=
  ∀ route node, item.at? route = some node → node.cached = true → ∀ rest,
    (item'.at? (route ++ rest)).map AnyNode.isParsed =
      (item.at? (route ++ rest)).map AnyNode.isParsed

/-- An item that grows sparingly spares the nodes below every cached one. -/
theorem Grows.spares (h : item.Grows true item') {v : PlainItem} (hholds : item.Holds v) :
    item.Spares item' := by
  intro route node hnode hcached rest
  obtain ⟨node', hnode', hgrows⟩ := h.at? hnode
  obtain ⟨encoding, hencodes⟩ := hholds.exists_encodes hnode
  have hraw : node.raw.isSome = true := by rw [hencodes.raw_eq hcached, Option.isSome_some]
  rw [at?_append hnode, at?_append hnode', hgrows.map_isParsed hcached hraw]

end Item

end CoinWire
