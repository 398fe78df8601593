import Mathlib
import CoinWire.Proofs.Tree

/-!
# Routes in a tree

A route leads from the root of a tree down to one of its nodes, as far as the tree is parsed. An
edit along a route leaves the nodes on the route stale and every other node that was there as it
was. One step of a route says what becomes of one node and of its children; by induction on the
route the same is known of all nodes, however far they are below.
-/

namespace CoinWire

inductive Step where
  | header
  | body
  | transaction (index : Nat)
  | input (index : Nat)
  | output (index : Nat)
deriving DecidableEq

def TxFields.child? (fields : TxFields) : Step → Option AnyNode
  | .input index => fields.inputs[index]?.map .input
  | .output index => fields.outputs[index]?.map .output
  | _ => none

def BodyFields.child? (fields : BodyFields) : Step → Option AnyNode
  | .transaction index => fields.transactions[index]?.map .transaction
  | _ => none

def Block.child? (block : Block) : Step → Option AnyNode
  | .header => some (.header block.header)
  | .body => block.body.map .body
  | _ => none

namespace AnyNode

def digest : AnyNode → Option Hash
  | header node => node.digest
  | body node => node.digest
  | transaction node => node.digest
  | input node => node.digest
  | output node => node.digest

def isParsed : AnyNode → Bool
  | header node => node.isParsed
  | body node => node.isParsed
  | transaction node => node.isParsed
  | input node => node.isParsed
  | output node => node.isParsed

/-- The child that a step leads to. A node without fields has none. -/
def child? : AnyNode → Step → Option AnyNode
  | body node, step => node.parsed.bind fun fields ↦ fields.child? step
  | transaction node, step => node.parsed.bind fun fields ↦ fields.child? step
  | _, _ => none

/-- The node at the end of a route, if it is there. -/
def at? : List Step → AnyNode → Option AnyNode
  | [], node => some node
  | step :: route, node => (node.child? step).bind (at? route)

/-- The node at the end of a route that begins with one of the children. -/
def follow (children : Step → Option AnyNode) : List Step → Option AnyNode
  | [] => none
  | step :: route => (children step).bind (at? route)

/-- The node has forgotten its bytes and its hash. -/
structure Stale (node : AnyNode) : Prop where
  uncached : node.cached = false
  raw : node.raw = none
  digest : node.digest = none

/-- Children that were there and are not the one that the step leads to stay. -/
structure Replaces (step : Step) (child child' : AnyNode)
    (children children' : Step → Option AnyNode) : Prop where
  before : ∀ other, children step = some other → other = child
  after : children' step = some child'
  kept : ∀ other ≠ step, ∀ found, children other = some found → children' other = some found

/-- The second node is what an edit at the end of the route has made of the first. -/
inductive EditedAt : List Step → AnyNode → AnyNode → Prop where
  | here {node node' : AnyNode} (stale : node'.Stale)
    (kept : ∀ step child, node.child? step = some child → node'.child? step = some child) :
    EditedAt [] node node'
  | step {step : Step} {route : List Step} {node node' child child' : AnyNode}
    (stale : node'.Stale) (replaces : Replaces step child child' node.child? node'.child?)
    (edited : EditedAt route child child') : EditedAt (step :: route) node node'

variable {step : Step} {route front other : List Step} {node node' child child' found : AnyNode}
  {children children' : Step → Option AnyNode}

theorem Replaces.off_route (h : Replaces step child child' children children')
    (hoff : ∀ other, ¬other <+: route → ∀ found, child.at? other = some found →
      child'.at? other = some found)
    (hother : ¬other <+: step :: route) (hfound : follow children other = some found) :
    follow children' other = some found := by
  cases other with
  | nil => contradiction
  | cons first rest =>
    obtain ⟨next, hnext, hrest⟩ := Option.bind_eq_some_iff.1 hfound
    by_cases hfirst : first = step
    · subst hfirst
      obtain rfl := h.before next hnext
      have hbelow : ¬rest <+: route := fun hprefix ↦
        hother (List.cons_prefix_cons.2 ⟨rfl, hprefix⟩)
      rw [follow, h.after, Option.bind_some, hoff rest hbelow found hrest]
    · rw [follow, h.kept first hfirst next hnext, Option.bind_some, hrest]

/-- A node that was there and is not on the route is the same afterwards. -/
theorem EditedAt.off_route (h : EditedAt route node node') :
    ∀ other, ¬other <+: route → ∀ found, node.at? other = some found →
      node'.at? other = some found := by
  induction h with
  | here stale kept =>
    intro other hother found hfound
    cases other with
    | nil => exact absurd List.nil_prefix hother
    | cons step rest =>
      obtain ⟨child, hchild, hrest⟩ := Option.bind_eq_some_iff.1 hfound
      rw [at?, kept step child hchild, Option.bind_some, hrest]
  | step stale replaces edited ih =>
    intro other hother found hfound
    cases other with
    | nil => exact absurd List.nil_prefix hother
    | cons first rest => exact replaces.off_route ih hother hfound

/-- Every node on the route is there afterwards, and it is stale. -/
theorem EditedAt.on_route (h : EditedAt route node node') :
    ∀ front, front <+: route → ∃ found, node'.at? front = some found ∧ found.Stale := by
  induction h with
  | here stale kept =>
    intro front hfront
    obtain rfl := List.prefix_nil.1 hfront
    exact ⟨_, rfl, stale⟩
  | step stale replaces edited ih =>
    intro front hfront
    cases front with
    | nil => exact ⟨_, rfl, stale⟩
    | cons first front =>
      obtain ⟨rfl, hrest⟩ := List.cons_prefix_cons.1 hfront
      obtain ⟨found, hfound, hstale⟩ := ih front hrest
      exact ⟨found, by rw [at?, replaces.after, Option.bind_some, hfound], hstale⟩

end AnyNode

open AnyNode

/-! ## Items -/

/-- The node of an item at the end of a route. A block is no node itself. -/
def Item.at? (route : List Step) : Item → Option AnyNode
  | .block whole => follow whole.child? route
  | .transaction node => (AnyNode.transaction node).at? route
  | .input node => (AnyNode.input node).at? route
  | .output node => (AnyNode.output node).at? route

/-- The bytes of the whole block are gone, and a part that the route does not enter is the same. -/
structure Block.EditedAlong (route : List Step) (block block' : Block) : Prop where
  raw : block'.raw = none
  header : .header ∉ route → block'.header = block.header
  hash : .header ∉ route → Block.hash.answer block' = Block.hash.answer block
  body : .body ∉ route → block'.body = block.body

/-- The nodes on the route have become stale, and those beside it have stayed. -/
structure Item.EditedAlong (route : List Step) (item item' : Item) : Prop where
  reached : ∃ node, item'.at? route = some node
  stale : ∀ front, front <+: route → ∀ node, item'.at? front = some node → node.Stale
  kept : ∀ other, ¬other <+: route → ∀ node, item.at? other = some node →
    item'.at? other = some node
  block : ∀ block, item = .block block → ∃ block', item' = .block block' ∧
    block.EditedAlong route block'

namespace Item.EditedAlong

variable {route : List Step} {item item' : Item}

/-- The root of the tree is a node. -/
theorem of_node {node node' : AnyNode} (h : EditedAt route node node')
    (hbefore : ∀ front, item.at? front = node.at? front)
    (hafter : ∀ front, item'.at? front = node'.at? front)
    (hitem : ∀ block, item ≠ .block block) : item.EditedAlong route item' := by
  refine ⟨?_, ?_, ?_, fun block hblock ↦ absurd hblock (hitem block)⟩
  · obtain ⟨found, hfound, -⟩ := h.on_route route List.prefix_rfl
    exact ⟨found, by rw [hafter, hfound]⟩
  · intro front hfront node hnode
    obtain ⟨found, hfound, hstale⟩ := h.on_route front hfront
    rw [hafter, hfound] at hnode
    injection hnode with hsame
    exact hsame ▸ hstale
  · intro other hother node hnode
    rw [hbefore] at hnode
    rw [hafter]
    exact h.off_route other hother node hnode

/-- The root of the tree is a block, and the route enters one of its parts. -/
theorem of_block {block block' : Block} {step : Step} {child child' : AnyNode}
    (hedited : EditedAt route child child')
    (hreplaces : Replaces step child child' block.child? block'.child?)
    (hblock : block.EditedAlong (step :: route) block') :
    Item.EditedAlong (step :: route) (.block block) (.block block') := by
  refine ⟨?_, ?_, ?_, ?_⟩
  · obtain ⟨found, hfound, -⟩ := hedited.on_route route List.prefix_rfl
    refine ⟨found, ?_⟩
    rw [Item.at?, follow, hreplaces.after, Option.bind_some, hfound]
  · intro front hfront node hnode
    cases front with
    | nil => contradiction
    | cons first front =>
      obtain ⟨rfl, hrest⟩ := List.cons_prefix_cons.1 hfront
      obtain ⟨found, hfound, hstale⟩ := hedited.on_route front hrest
      rw [Item.at?, follow, hreplaces.after, Option.bind_some, hfound] at hnode
      injection hnode with hsame
      exact hsame ▸ hstale
  · intro other hother node hnode
    exact hreplaces.off_route hedited.off_route hother hnode
  · rintro _ ⟨⟩
    exact ⟨block', rfl, hblock⟩

end Item.EditedAlong

end CoinWire
