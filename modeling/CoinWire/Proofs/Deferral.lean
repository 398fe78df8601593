import Mathlib
import CoinWire.Proofs.Reachable

/-!
# Deferred parsing

A node without fields holds the encoding of one value and nothing else, so the parse that was put
off succeeds whenever it is made. An access to a node fails only if it fails on the fields, and an
operation on what is in a slot is refused only for want of a part. The branches for a node that has
neither bytes nor fields are never taken.
-/

namespace CoinWire

open Holder Plain Workbench

variable {F V α : Type}

/-- The access answers. -/
def Access.Succeeds {σ : Type} (access : Access σ α) (state : σ) : Prop :=
  ∃ a state', access state = .ok a state'

/-- A question that every value answers succeeds at any state that holds one. -/
theorem Looks.succeeds {σ β : Type} [Holder σ V] {access : Access σ α} {R : α → β → Prop}
    {f : V → β} (h : Looks access R fun v ↦ .ok (f v)) {s : σ} {v : V} (hs : Holds s v) :
    access.Succeeds s := by
  obtain ⟨a, s', ha, -⟩ := h.exists_ok hs
  exact ⟨a, s', ha⟩

theorem Edits.succeeds {σ β : Type} [Holder σ V] {access : Access σ α} {R : α → β → Prop}
    {f : V → β} (h : Edits access R (Change.ask fun v ↦ .ok (f v))) {s : σ} {v : V}
    (hs : Holds s v) : access.Succeeds s := by
  obtain ⟨a, s', ha, -, -⟩ := h.exists_ok hs
  exact ⟨a, s', ha⟩

/-! ## Nodes -/

/-- Nothing that needs the fields of the node can fail for a parse. -/
structure Node.Materializes [Layout F] [Plain V] [Holder F V] (node : Node F) : Prop where
  /-- The bytes of a node without fields are the encoding of exactly one value. -/
  unparsed : node.parsed = none → ∃! v : V, Fits v ∧ node.raw = some (wire v)
  /-- The fields can be had, and a look at them or an edit fails only where the access does. -/
  fields : ∃ fields, Node.fields node = .ok fields (node.putFields fields) ∧
    ∀ (α : Type) (access : Access F α),
      (Node.look access).answer node = access.answer fields ∧
        (Node.edit access).answer node = access.answer fields
  invalidate : Node.invalidate.Succeeds node
  bytes : Node.bytes.Succeeds node
  serialize : Node.serialize.Succeeds node
  hash : Node.hash.Succeeds node
  /-- A node that cannot be parsed would not even equal itself. -/
  equal : (Node.compare node node).equal = true
  /-- Only a node with neither bytes nor fields has no length. -/
  length : 0 < node.length

/-- A node that holds a value can be looked at, encoded and hashed. -/
theorem Node.Holds.materializes [Layout F] [Plain V] [Holder F V] [LawfulLayout F V]
    {node : Node F} {v : V} (h : node.Holds v) : node.Materializes := by
  obtain ⟨fields, hfields, -⟩ := Node.fields_eq h
  refine ⟨?_, ⟨fields, hfields, ?_⟩, Node.edits_invalidate.succeeds h,
    Node.looks_bytes.succeeds h, Node.edits_serialize.succeeds h, Node.looks_hash.succeeds h,
    ?_, ?_⟩
  · intro hparsed
    obtain ⟨hraw, hfits, -⟩ := h.unparsed hparsed
    refine ⟨v, ⟨hfits, hraw⟩, ?_⟩
    rintro w ⟨hfits', hraw'⟩
    have hwire : wire w = wire v := Option.some.inj (hraw'.symm.trans hraw)
    exact accepts_read.unique hfits' hfits List.prefix_rfl (hwire ▸ List.prefix_rfl)
  · intro α access
    unfold Access.answer
    rw [Node.look_apply, Node.edit_apply, hfields]
    dsimp only
    cases access fields with
    | ok a fields' => exact ⟨rfl, rfl⟩
    | error e fields' => exact ⟨rfl, rfl⟩
  · exact (Node.compares h h).equal.2 rfl
  · rw [h.length_eq]
    exact wire_pos v

def AnyNode.Materializes : AnyNode → Prop
  | header node => node.Materializes
  | body node => node.Materializes
  | transaction node => node.Materializes
  | input node => node.Materializes
  | output node => node.Materializes

theorem AnyNode.Encodes.materializes {node : AnyNode} {encoding : Bytes}
    (h : node.Encodes encoding) : node.Materializes := by
  cases h with
  | header h => exact Node.Holds.materializes h
  | body h => exact Node.Holds.materializes h
  | transaction h => exact Node.Holds.materializes h
  | input h => exact Node.Holds.materializes h
  | output h => exact Node.Holds.materializes h

/-! ## Blocks -/

/-- No operation on the whole block can fail for a parse. -/
structure Block.Materializes (block : Block) : Prop where
  ensureParsed : Block.ensureParsed.Succeeds block
  contents : Block.contents.Succeeds block
  invalidate : Block.invalidate.Succeeds block
  bytes : Block.bytes.Succeeds block
  serialize : Block.serialize.Succeeds block
  hash : Block.hash.Succeeds block
  equal : (Block.compare block block).equal = true
  length : 0 < block.length

/-- A block that holds a value can be parsed, encoded, hashed and compared, with a body or without.
-/
theorem Block.Holds.materializes {block : Block} {v : PlainBlock} (h : block.Holds v) :
    block.Materializes := by
  refine ⟨Block.looks_ensureParsed.succeeds h, Block.looks_contents.succeeds h,
    Block.edits_invalidate.succeeds h, Block.looks_bytes.succeeds h,
    Block.edits_serialize.succeeds h, Block.looks_hash.succeeds h, ?_, ?_⟩
  · exact (Block.compares h h).equal.2 rfl
  · rw [h.length_eq]
    exact wire_pos v

/-! ## Workbenches -/

/-- Nothing that works on what is there can fail for a parse. -/
structure Workbench.Materializes (bench : Workbench Item) : Prop where
  /-- Only a part that is not there makes an operation fail. -/
  refusal : ∀ operation refusal after, operation.isMake = false →
    perform operation bench = .error refusal after → refusal.IsAbsence
  nodes : ∀ node ∈ bench.nodes, node.Materializes
  blocks : ∀ block ∈ bench.blocks, block.Materializes

/-- On a workbench that holds plain values, every node of every item can be parsed. -/
theorem Workbench.Holds.materializes {bench : Workbench Item} {plain : Workbench PlainItem}
    (h : bench.Holds plain) : bench.Materializes := by
  refine ⟨?_, ?_, ?_⟩
  · intro operation refusal after hmake hrefusal
    obtain ⟨answer, bench', -, -, hanswer, -⟩ | ⟨refusal', bench', -, hrefusal', -, habsence, -⟩ :=
      mirrors_perform operation hmake bench plain h
    · rw [hanswer] at hrefusal
      contradiction
    · rw [hrefusal'] at hrefusal
      injection hrefusal with hsame
      exact hsame ▸ habsence
  · intro node hnode
    obtain ⟨encoding, hencodes⟩ := h.encodes_of_mem_nodes node hnode
    exact hencodes.materializes
  · intro block hblock
    obtain ⟨v, hv⟩ := h.block_of_mem block hblock
    exact hv.materializes

/-- After every run, whatever was not parsed yet can be parsed. -/
theorem materializes_run (operations : List Operation) :
    (run perform operations empty).2.Materializes :=
  (run_mirrors operations .nil).2.materializes

end CoinWire
