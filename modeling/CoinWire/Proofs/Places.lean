import Mathlib
import CoinWire.Proofs.Growth.Routes
import CoinWire.Proofs.Staleness

/-!
# A value in its place

A value deep in a tree is at hand once all above it is parsed. What is done to it then is done to
the tree by putting the changed value in its place: every node beside the way to it stays as it was,
and the nodes on the way keep their marks.
-/

namespace CoinWire

open AnyNode

variable {F σ τ α β : Type}

/-! ## Parts put back -/

namespace AnyNode

/-- The second tree is the first with another child at the end of the route. -/
structure Swaps (route : List Step) (child child' node node' : AnyNode) : Prop where
  before : node.at? route = some child
  after : node'.at? route = some child'
  outside : ∀ other, ¬route <+: other →
    (node'.at? other).map isParsed = (node.at? other).map isParsed

theorem Swaps.here (child child' : AnyNode) : Swaps [] child child' child child' :=
  ⟨rfl, rfl, fun _ hother ↦ absurd List.nil_prefix hother⟩

/-- The child of a child is put back into the child, and that into the node. -/
theorem Swaps.step {step : Step} {route : List Step} {child child' next next' node node' : AnyNode}
    (h : Swaps route child child' next next') (hparsed : node'.isParsed = node.isParsed)
    (hnext : node.child? step = some next) (hnext' : node'.child? step = some next')
    (hothers : ∀ other ≠ step, node'.child? other = node.child? other) :
    Swaps (step :: route) child child' node node' := by
  refine ⟨?_, ?_, ?_⟩
  · rw [at?, hnext, Option.bind_some, h.before]
  · rw [at?, hnext', Option.bind_some, h.after]
  · intro other hother
    cases other with
    | nil => rw [at?, at?, Option.map_some, Option.map_some, hparsed]
    | cons first rest =>
      by_cases hfirst : first = step
      · subst hfirst
        have hrest : ¬route <+: rest := fun hprefix ↦
          hother (List.cons_prefix_cons.2 ⟨rfl, hprefix⟩)
        rw [at?, at?, hnext, hnext', Option.bind_some, Option.bind_some, h.outside rest hrest]
      · rw [at?, at?, hothers first hfirst]

end AnyNode

/-- The second item is the first with another value in the place that the route leads to. -/
structure Item.Swaps (route : List Step) (child child' item item' : Item) : Prop where
  before : ∀ rest, item.at? (route ++ rest) = child.at? rest
  after : ∀ rest, item'.at? (route ++ rest) = child'.at? rest
  outside : ∀ other, ¬route <+: other →
    (item'.at? other).map isParsed = (item.at? other).map isParsed
  /-- Only the item itself may have no node for its root. -/
  root : route = [] ∨ ∃ node, child.at? [] = some node

namespace Item.Swaps

theorem here (child child' : Item) : Item.Swaps [] child child' child child' :=
  ⟨fun _ ↦ rfl, fun _ ↦ rfl, fun _ hother ↦ absurd List.nil_prefix hother, .inl rfl⟩

variable {route : List Step} {child child' item item' : Item} {node node' tree tree' : AnyNode}

/-- The root of the tree is a node. -/
theorem of_node (h : AnyNode.Swaps route node node' tree tree')
    (hchild : ∀ rest, child.at? rest = node.at? rest)
    (hchild' : ∀ rest, child'.at? rest = node'.at? rest)
    (hitem : ∀ rest, item.at? rest = tree.at? rest)
    (hitem' : ∀ rest, item'.at? rest = tree'.at? rest) :
    Item.Swaps route child child' item item' := by
  refine ⟨?_, ?_, ?_, .inr ⟨node, hchild []⟩⟩
  · intro rest
    rw [hitem, hchild, AnyNode.at?_append, h.before, Option.bind_some]
  · intro rest
    rw [hitem', hchild', AnyNode.at?_append, h.after, Option.bind_some]
  · intro other hother
    rw [hitem, hitem', h.outside other hother]

/-- The root of the tree is a block, and the route enters its body. -/
theorem of_body {block : Block} {body body' : Node BodyFields} (hbody : block.body = some body)
    (h : AnyNode.Swaps route node node' (.body body) (.body body'))
    (hchild : ∀ rest, child.at? rest = node.at? rest)
    (hchild' : ∀ rest, child'.at? rest = node'.at? rest) :
    Item.Swaps (.body :: route) child child' (.block block)
      (.block { block with body := some body' }) := by
  have hstep : block.child? .body = some (.body body) := by
    rw [Block.child?, hbody, Option.map_some]
  refine ⟨?_, ?_, ?_, .inr ⟨node, hchild []⟩⟩
  · intro rest
    rw [hchild, Item.at?, List.cons_append, follow, hstep, Option.bind_some, AnyNode.at?_append,
      h.before, Option.bind_some]
  · intro rest
    change (AnyNode.at? (route ++ rest) (.body body')) = _
    rw [hchild', AnyNode.at?_append, h.after, Option.bind_some]
  · intro other hother
    cases other with
    | nil => rfl
    | cons first rest =>
      cases first with
      | body =>
        have hrest : ¬route <+: rest := fun hprefix ↦
          hother (List.cons_prefix_cons.2 ⟨rfl, hprefix⟩)
        change (AnyNode.at? rest (.body body')).map isParsed = _
        rw [Item.at?, follow, hstep, Option.bind_some, h.outside rest hrest]
      | header | transaction | input | output => rfl

end Item.Swaps

/-! ## Values at hand -/

namespace Node

variable [Layout F] {node : Node F}

theorem after_look_of_parsed {fields : F} (hparsed : node.parsed = some fields)
    (access : Access F α) :
    (Node.look access).after node = node.putFields (access.after fields) := by
  rw [after_look, Node.fields, hparsed]

/-- A child that a look finds without parsing anything is in the list of the fields. -/
theorem exists_of_look_at_hand {get : F → List σ} {set : List σ → F → F}
    (hget : ∀ list fields, get (set list fields) = list) {index : Nat} {access : Access σ α} {a : α}
    (h : Node.look (Access.focus get set (Access.at? index access)) node = .ok (some a) node) :
    ∃ fields state, node.parsed = some fields ∧ (get fields)[index]? = some state ∧
      access state = .ok a state := by
  rw [look_apply] at h
  cases hfields : Node.fields node with
  | error e node' =>
    rw [hfields] at h
    contradiction
  | ok fields node' =>
    rw [hfields] at h
    obtain rfl := eq_putFields_of_fields hfields
    dsimp only [Access.focus, Access.at?] at h
    cases hstate : (get fields)[index]? with
    | none =>
      rw [hstate] at h
      injection h with h
      contradiction
    | some state =>
      rw [hstate] at h
      dsimp only at h
      rw [Access.map_apply] at h
      cases haccess : access state with
      | error e state' =>
        rw [haccess] at h
        contradiction
      | ok b state' =>
        rw [haccess] at h
        injection h with hanswer hnode
        obtain rfl : b = a := Option.some.inj hanswer
        have hparsed : node.parsed = some (set ((get fields).set index state') fields) :=
          congrArg Node.parsed hnode.symm
        have hsame := eq_of_parsed hfields hparsed
        have hlist : (get fields).set index state' = get fields := by
          rw [← hget ((get fields).set index state') fields, hsame]
        have hlt := (List.getElem?_eq_some_iff.1 hstate).1
        have hstate' : (get fields)[index]? = some state' := by
          rw [← hlist, List.getElem?_set_self hlt]
        obtain rfl : state = state' := Option.some.inj (hstate.symm.trans hstate')
        exact ⟨fields, state, hsame ▸ hparsed, hstate, haccess⟩

end Node

/-- What is done to a child in a list is done to the parent by putting it back. -/
theorem AnyNode.Lists.swaps [Layout F] {children : F → Step → Option AnyNode}
    {get : F → List σ} {set : List σ → F → F} {step : Nat → Step} {wrapChild : σ → AnyNode}
    (hlist : Lists children get set step wrapChild) {wrap : Node F → AnyNode}
    (hwrap : Wraps wrap children) {node : Node F} {fields : F} {state : σ} {index : Nat}
    (hparsed : node.parsed = some fields) (hstate : (get fields)[index]? = some state)
    {route : List Step} {child child' : AnyNode} {access : Access σ α}
    (h : AnyNode.Swaps route child child' (wrapChild state) (wrapChild (access.after state))) :
    AnyNode.Swaps (step index :: route) child child' (wrap node)
      (wrap ((Node.look (Access.focus get set (Access.at? index access))).after node)) := by
  have hafter : (Node.look (Access.focus get set (Access.at? index access))).after node =
      node.putFields (set ((get fields).set index (access.after state)) fields) := by
    rw [Node.after_look_of_parsed hparsed, Access.after_focus, Access.after_at?, hstate]
  have hlt := (List.getElem?_eq_some_iff.1 hstate).1
  rw [hafter]
  refine h.step ?_ ?_ ?_ ?_
  · rw [hwrap.isParsed, hwrap.isParsed, Node.isParsed, Node.isParsed, hparsed]
    rfl
  · rw [hwrap.child?, hparsed, Option.bind_some, hlist.child?, hstate, Option.map_some]
  · rw [hwrap.child?, Node.putFields, Option.bind_some, hlist.child?, hlist.get_set,
      List.getElem?_set_self hlt, Option.map_some]
  · intro other hne
    rw [hwrap.child?, hwrap.child?, hparsed, Node.putFields, Option.bind_some, Option.bind_some]
    by_cases hother : ∃ place, other = step place
    · obtain ⟨place, rfl⟩ := hother
      have hindex : index ≠ place := fun hsame ↦ hne (hsame ▸ rfl)
      rw [hlist.child?, hlist.child?, hlist.get_set, List.getElem?_set_ne hindex]
    · exact hlist.others _ _ _ fun place hplace ↦ hother ⟨place, hplace⟩

/-! ## Places -/

namespace Visit

variable {place : Place} {child : Item}

/-- A value in a transaction is put back into it. -/
theorem lookTransaction?_swaps {transaction : Transaction}
    (h : found.lookTransaction? place transaction = .ok (some child) transaction)
    (visit : Visit α) :
    ∃ node node' : AnyNode, (∀ rest, child.at? rest = node.at? rest) ∧
      (∀ rest, (visit.onItem.after child).at? rest = node'.at? rest) ∧
      AnyNode.Swaps place.inner node node' (.transaction transaction)
        (.transaction ((visit.lookTransaction? place).after transaction)) := by
  unfold lookTransaction? at h ⊢
  unfold Place.inner
  cases hinput : place.input with
  | some index =>
    rw [hinput] at h
    dsimp only at h ⊢
    obtain ⟨fields, input, hparsed, hstate, hfound⟩ :=
      Node.exists_of_look_at_hand (fun _ _ ↦ rfl) h
    injection hfound with hchild
    subst hchild
    refine ⟨.input input, .input (visit.input.after input), fun _ ↦ rfl, ?_,
      lists_inputs.swaps wraps_transaction hparsed hstate (.here _ _)⟩
    intro rest
    rw [after_onItem]
    rfl
  | none =>
    rw [hinput] at h
    cases houtput : place.output with
    | some index =>
      rw [houtput] at h
      dsimp only at h ⊢
      obtain ⟨fields, output, hparsed, hstate, hfound⟩ :=
        Node.exists_of_look_at_hand (fun _ _ ↦ rfl) h
      injection hfound with hchild
      subst hchild
      refine ⟨.output output, .output (visit.output.after output), fun _ ↦ rfl, ?_,
        lists_outputs.swaps wraps_transaction hparsed hstate (.here _ _)⟩
      intro rest
      rw [after_onItem]
      rfl
    | none =>
      rw [houtput] at h
      injection h with hchild
      obtain rfl : Item.transaction transaction = child := Option.some.inj hchild
      dsimp only
      rw [Access.after_map]
      refine ⟨_, _, fun _ ↦ rfl, ?_, .here _ _⟩
      intro rest
      rw [after_onItem]
      rfl

/-- A transaction that is at hand in a block is in its body. -/
theorem exists_of_lookBlock?_at_hand {block : Block} {index : Nat}
    (hplace : place.transaction = some index)
    (h : found.lookBlock? place block = .ok (some child) block) :
    ∃ body, block.body = some body ∧
      Node.look (BodyFields.onTransactions (Access.at? index (found.lookTransaction? place))) body =
        .ok (some (some child)) body := by
  unfold lookBlock? at h
  rw [hplace] at h
  obtain ⟨answer, middle, hlook, hjoin⟩ := Access.bind_eq_ok_iff.1 h
  injection hjoin with hanswer hblock
  subst hblock
  obtain rfl : answer = some (some child) := Option.join_eq_some_iff.1 hanswer
  rw [Block.lookTransaction?, Block.lookTransactions, Block.onBody] at hlook
  cases hbody : middle.body with
  | none =>
    rw [hbody] at hlook
    contradiction
  | some body =>
    rw [hbody] at hlook
    obtain ⟨body', hrun, hput⟩ := Access.mapState_eq_ok_iff.1 hlook
    have hsame : some body' = some body := (congrArg Block.body hput).trans hbody
    obtain rfl : body' = body := Option.some.inj hsame
    exact ⟨body', rfl, hrun⟩

end Visit

/-- What is done to a value at hand is done to the item by putting the value back in its place. -/
theorem Item.swaps_of_look? {item child : Item} {place : Place}
    (h : Visit.found.look? place item = .ok (some child) item) (visit : Visit α) :
    Item.Swaps (place.route item) child (visit.onItem.after child) item
      ((visit.look? place).after item) := by
  rw [Visit.after_look?]
  cases item with
  | block block =>
    obtain ⟨block', hlook, hblock⟩ := Access.mapState_eq_ok_iff.1 h
    injection hblock with hblock
    subst hblock
    unfold Place.route
    cases hplace : place.transaction with
    | none =>
      unfold Visit.lookBlock? at hlook ⊢
      rw [hplace] at hlook ⊢
      injection hlook with hchild
      obtain rfl : Item.block block' = child := Option.some.inj hchild
      dsimp only
      rw [Access.after_map, Visit.after_onItem]
      exact .here _ _
    | some index =>
      obtain ⟨body, hbody, hrun⟩ := Visit.exists_of_lookBlock?_at_hand hplace hlook
      obtain ⟨fields, transaction, hparsed, hstate, hfound⟩ :=
        Node.exists_of_look_at_hand (fun _ _ ↦ rfl) hrun
      obtain ⟨node, node', hchild, hchild', hswaps⟩ := Visit.lookTransaction?_swaps hfound visit
      have hbodies := lists_transactions.swaps wraps_body hparsed hstate hswaps
      unfold Visit.lookBlock?
      rw [hplace]
      dsimp only
      rw [Access.after_answer, Block.lookTransaction?, Block.lookTransactions,
        Block.after_onBody, hbody]
      exact .of_body hbody hbodies hchild hchild'
  | transaction transaction =>
    obtain ⟨transaction', hlook, htransaction⟩ := Access.mapState_eq_ok_iff.1 h
    injection htransaction with htransaction
    subst htransaction
    obtain ⟨node, node', hchild, hchild', hswaps⟩ := Visit.lookTransaction?_swaps hlook visit
    exact .of_node hswaps hchild hchild' (fun _ ↦ rfl) fun _ ↦ rfl
  | input input =>
    injection h with hchild
    obtain rfl : Item.input input = child := Option.some.inj hchild
    rw [Visit.after_onItem]
    exact .here _ _
  | output output =>
    injection h with hchild
    obtain rfl : Item.output output = child := Option.some.inj hchild
    rw [Visit.after_onItem]
    exact .here _ _

end CoinWire
