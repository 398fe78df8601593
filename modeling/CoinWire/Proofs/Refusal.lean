import Mathlib
import CoinWire.Proofs.Staleness

/-!
# Refused edits

An edit may find that the child is missing that it goes for. By then the nodes on the way were lent
out: each was parsed and has forgotten its bytes and its hash. A list refuses for want of a child,
and a child that is there refuses on behalf of what is below it; so the way ends at the node that
lacks the child, and no node beside the way is touched.
-/

namespace CoinWire

open AnyNode Holder

variable {F V σ τ α β : Type}

/-! ## Accesses that fail -/

namespace Access

variable {e : CodecError}

theorem mapState_eq_error {wrap : σ → τ} {outcome : EStateM.Result CodecError σ α} {state' : τ}
    (h : mapState wrap outcome = .error e state') :
    ∃ state, outcome = .error e state ∧ wrap state = state' := by
  cases outcome with
  | ok a state => contradiction
  | error e' state =>
    injection h with he hstate
    exact ⟨state, by rw [he], hstate⟩

/-- An access at an index fails where there is no state, or as the access of the state fails. -/
theorem atIndex_eq_error {access : Access σ α} {index : Nat} {states states' : List σ}
    (h : atIndex index access states = .error e states') :
    (states[index]? = none ∧ e = .indexOutOfBounds index states.length ∧ states' = states) ∨
      ∃ state state', states[index]? = some state ∧ access state = .error e state' ∧
        states' = states.set index state' := by
  rw [atIndex, bind_apply, at?] at h
  cases hstate : states[index]? with
  | none =>
    rw [hstate] at h
    injection h with he hstates
    exact .inl ⟨rfl, he.symm, hstates.symm⟩
  | some state =>
    rw [hstate] at h
    dsimp only at h
    rw [map_apply] at h
    cases haccess : access state with
    | ok a state' =>
      rw [haccess] at h
      contradiction
    | error e' state' =>
      rw [haccess] at h
      injection h with he hstates
      exact .inr ⟨state, state', rfl, by rw [haccess, he], hstates.symm⟩

/-- A removal fails just where there is no such index, and leaves the list as it is. -/
theorem detach_eq_error {index : Nat} {states states' : List σ}
    (h : detach index states = .error e states') :
    states[index]? = none ∧ e = .indexOutOfBounds index states.length ∧ states' = states := by
  unfold detach at h
  cases hstate : states[index]? with
  | none =>
    rw [hstate] at h
    injection h with he hstates
    exact ⟨rfl, he.symm, hstates.symm⟩
  | some state =>
    rw [hstate] at h
    contradiction

end Access

/-- A node of which the fields are not edited has gone stale nevertheless. -/
theorem Node.edit_eq_error [Layout F] {node node' : Node F} {fields : F}
    (hfields : Node.fields node = .ok fields (node.putFields fields)) {access : Access F α}
    {e : CodecError} (h : Node.edit access node = .error e node') :
    ∃ fields', access fields = .error e fields' ∧ node' = node.stale.putFields fields' := by
  rw [edit_apply, hfields] at h
  dsimp only at h
  cases haccess : access fields with
  | ok a fields' =>
    rw [haccess] at h
    contradiction
  | error e' fields' =>
    rw [haccess] at h
    injection h with he hnode
    refine ⟨fields', by rw [he], hnode.symm.trans ?_⟩
    rw [stale_eq, stale_eq]
    rfl

/-- An edit of the body fails for want of a body, or where the edit of the node fails. In both cases
the block's own bytes are gone. -/
theorem Block.editBody_eq_error {block block' : Block} {access : Access BodyFields α}
    {e : CodecError} (h : Block.editBody access block = .error e block') :
    (block.body = none ∧ e = .headerOnly ∧ block' = { block with raw := none }) ∨
      ∃ body body', block.body = some body ∧ Node.edit access body = .error e body' ∧
        block' = { block with body := some body', raw := none } := by
  rw [editBody_apply, onBody] at h
  dsimp only at h
  cases hbody : block.body with
  | none =>
    rw [hbody] at h
    injection h with he hblock
    exact .inl ⟨rfl, he.symm, hbody ▸ hblock.symm⟩
  | some body =>
    rw [hbody] at h
    obtain ⟨body', hedit, hblock⟩ := Access.mapState_eq_error h
    exact .inr ⟨body, body', rfl, hedit, hblock.symm⟩

/-- An edit that stands for a change that is always made does not fail. -/
theorem Edits.ne_error [Holder σ V] {access : Access σ α} {R : α → β → Prop} {change : Change V β}
    (h : Edits access R change) {s s' : σ} {v : V} (hs : Holds s v)
    (hchange : ∃ found, change v = .ok found) (e : CodecError) : access s ≠ .error e s' := by
  obtain ⟨found, hfound⟩ := hchange
  intro hrun
  obtain ⟨a, t, b, w, ha, -⟩ | ⟨e', t, -, hf, -⟩ := h s v hs
  · rw [hrun] at ha
    contradiction
  · rw [hfound] at hf
    contradiction

/-! ## Nodes that are lent out -/

namespace AnyNode

def config : AnyNode → ParseConfig
  | header node => node.config
  | body node => node.config
  | transaction node => node.config
  | input node => node.config
  | output node => node.config

/-- The second node is the first after it was lent out: parsed, without bytes and hash. -/
structure Lent (node node' : AnyNode) : Prop where
  stale : node'.Stale
  parsed : node'.isParsed = true
  config : node'.config = node.config

/-- Every node on the route was lent out, and nothing else was done. -/
inductive LentAt : List Step → AnyNode → AnyNode → Prop where
  | here {node node' : AnyNode} (lent : node.Lent node')
    (kept : ∀ step child, node.child? step = some child → node'.child? step = some child) :
    LentAt [] node node'
  | step {step : Step} {route : List Step} {node node' child child' : AnyNode}
    (lent : node.Lent node') (replaces : Replaces step child child' node.child? node'.child?)
    (below : LentAt route child child') : LentAt (step :: route) node node'

/-- The way asks for a child that is not there: behind `lent` is a list of `length` children, and it
asks for the one at `index`. -/
structure Lacks (found : List Step → Option AnyNode) (way lent : List Step) (index length : Nat) :
    Prop where
  list : ∃ list : Nat → Step, lent ++ [list index] <+: way ∧
    ∀ i, (found (lent ++ [list i])).isSome = true ↔ i < length
  missing : length ≤ index

/-- What an edit that goes the way and is refused has made of a node. -/
def Refused (way : List Step) (e : CodecError) (node node' : AnyNode) : Prop :=
  ∃ lent index length, e = .indexOutOfBounds index length ∧ LentAt lent node node' ∧
    Lacks (fun route ↦ node'.at? route) way lent index length

variable {node node' child child' : AnyNode} {step : Step} {way lent route : List Step}
  {e : CodecError} {index length : Nat} {found found' : List Step → Option AnyNode}

/-- A node that was lent out along a way is edited along it. -/
theorem LentAt.editedAt (h : LentAt route node node') : EditedAt route node node' := by
  induction h with
  | here lent kept => exact .here lent.stale kept
  | step lent replaces _ ih => exact .step lent.stale replaces ih

/-- The nodes on the route, before and after. -/
theorem LentAt.on_route (h : LentAt route node node') :
    ∀ front, front <+: route → ∀ after, node'.at? front = some after →
      after.Stale ∧ after.isParsed = true ∧
        ∀ before, node.at? front = some before → after.config = before.config := by
  have hroot {node node' : AnyNode} (lent : node.Lent node') :
      ∀ after, node'.at? [] = some after → after.Stale ∧ after.isParsed = true ∧
        ∀ before, node.at? [] = some before → after.config = before.config := by
    rintro after ⟨⟩
    refine ⟨lent.stale, lent.parsed, ?_⟩
    rintro before ⟨⟩
    exact lent.config
  induction h with
  | here lent kept =>
    intro front hfront
    obtain rfl := List.prefix_nil.1 hfront
    exact hroot lent
  | @step step route node node' child child' lent replaces below ih =>
    intro front hfront
    cases front with
    | nil => exact hroot lent
    | cons first front =>
      obtain ⟨rfl, hrest⟩ := List.cons_prefix_cons.1 hfront
      intro after hafter
      rw [at?, replaces.after, Option.bind_some] at hafter
      obtain ⟨hstale, hparsed, hconfig⟩ := ih front hrest after hafter
      refine ⟨hstale, hparsed, fun before hbefore ↦ ?_⟩
      obtain ⟨other, hother, hbefore⟩ := Option.bind_eq_some_iff.1 hbefore
      obtain rfl := replaces.before other hother
      exact hconfig before hbefore

theorem Lacks.cons (h : Lacks found way lent index length)
    (hfound : ∀ route, found' (step :: route) = found route) :
    Lacks found' (step :: way) (step :: lent) index length := by
  obtain ⟨⟨list, hway, hlist⟩, hmissing⟩ := h
  refine ⟨⟨list, List.cons_prefix_cons.2 ⟨rfl, hway⟩, fun i ↦ ?_⟩, hmissing⟩
  rw [List.cons_append, hfound]
  exact hlist i

/-- A child that is there refuses on behalf of what is below it. -/
theorem Refused.of_child (h : Refused way e child child') (lent : node.Lent node')
    (replaces : Replaces step child child' node.child? node'.child?) :
    Refused (step :: way) e node node' := by
  obtain ⟨inner, index, length, he, hlent, hlacks⟩ := h
  refine ⟨step :: inner, index, length, he, .step lent replaces hlent, hlacks.cons fun route ↦ ?_⟩
  rw [at?, replaces.after, Option.bind_some]

end AnyNode

/-! ## Lists of children -/

namespace AnyNode

section

variable [Layout F] {children : F → Step → Option AnyNode} {get : F → List σ}
  {set : List σ → F → F} {step : Nat → Step} {wrapChild : σ → AnyNode} {wrap : Node F → AnyNode}
  {node node' : Node F} {fields fields' : F} {index : Nat} {way : List Step} {e : CodecError}
  {access : Access σ α}

omit [Layout F] in
theorem Wraps.lent (hwrap : Wraps wrap children)
    (hconfig : ∀ node, (wrap node).config = node.config) :
    (wrap node).Lent (wrap (node.stale.putFields fields')) := by
  refine ⟨hwrap.stale, ?_, ?_⟩
  · rw [hwrap.isParsed]
    rfl
  · rw [hconfig, hconfig, Node.stale_eq]
    rfl

/-- The list has no child at the index. -/
theorem Lists.refused_here (hlist : Lists children get set step wrapChild)
    (hwrap : Wraps wrap children) (hconfig : ∀ node, (wrap node).config = node.config)
    (hfields : Node.fields node = .ok fields (node.putFields fields))
    (hindex : (get fields)[index]? = none) :
    Refused (step index :: way) (.indexOutOfBounds index (get fields).length) (wrap node)
      (wrap (node.stale.putFields (set (get fields) fields))) := by
  have hchildren (other : Step) :
      (wrap (node.stale.putFields (set (get fields) fields))).child? other =
        children fields other := by
    rw [hwrap.child?, Node.putFields, Option.bind_some]
    by_cases hother : ∃ place, other = step place
    · obtain ⟨place, rfl⟩ := hother
      rw [hlist.child?, hlist.child?, hlist.get_set]
    · exact hlist.others _ _ _ fun place hplace ↦ hother ⟨place, hplace⟩
  refine ⟨[], index, (get fields).length, rfl, .here (hwrap.lent hconfig) ?_,
    ⟨⟨step, ⟨way, rfl⟩, ?_⟩, List.getElem?_eq_none_iff.1 hindex⟩⟩
  · intro other child hchild
    rw [hchildren, hwrap.child?_of_fields hfields hchild]
  · intro i
    dsimp only [List.nil_append]
    rw [at?, hchildren, hlist.child?]
    cases hchild : (get fields)[i]? with
    | none => simpa using hchild
    | some child => simpa [at?] using (List.getElem?_eq_some_iff.1 hchild).1

/-- An edit of a child is refused by the list, or by the child. -/
theorem Lists.refused_atIndex (hlist : Lists children get set step wrapChild)
    (hwrap : Wraps wrap children) (hconfig : ∀ node, (wrap node).config = node.config)
    (hfields : Node.fields node = .ok fields (node.putFields fields))
    (hchild : ∀ state state', (get fields)[index]? = some state → access state = .error e state' →
      Refused way e (wrapChild state) (wrapChild state'))
    (h : Node.edit (Access.focus get set (Access.atIndex index access)) node = .error e node') :
    Refused (step index :: way) e (wrap node) (wrap node') := by
  obtain ⟨fields', hedit, rfl⟩ := Node.edit_eq_error hfields h
  obtain ⟨states', hlistEdit, rfl⟩ := Access.mapState_eq_error hedit
  obtain ⟨hindex, rfl, rfl⟩ | ⟨state, state', hstate, haccess, rfl⟩ :=
    Access.atIndex_eq_error hlistEdit
  · exact hlist.refused_here hwrap hconfig hfields hindex
  · exact (hchild state state' hstate haccess).of_child (hwrap.lent hconfig)
      (hlist.replaces hwrap hfields hstate state')

/-- A removal at an index that is not there makes the parent stale and leaves the children. -/
theorem Lists.refused_detach (hlist : Lists children get set step wrapChild)
    (hwrap : Wraps wrap children) (hconfig : ∀ node, (wrap node).config = node.config)
    (hfields : Node.fields node = .ok fields (node.putFields fields))
    (h : Node.edit (Access.focus get set (Access.detach index)) node = .error e node') :
    Refused [step index] e (wrap node) (wrap node') := by
  obtain ⟨fields', hedit, rfl⟩ := Node.edit_eq_error hfields h
  obtain ⟨states', hdetach, rfl⟩ := Access.mapState_eq_error hedit
  obtain ⟨hindex, rfl, rfl⟩ := Access.detach_eq_error hdetach
  exact hlist.refused_here hwrap hconfig hfields hindex

end

end AnyNode

end CoinWire
