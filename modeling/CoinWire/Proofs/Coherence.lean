import Mathlib
import CoinWire.Proofs.Reachable

/-!
# Coherence of a tree

No stale node lies below a cached one, and the bytes of every node below a cached one are its slice
of the bytes above. The bytes of a whole block are those of its parts.

This is less than what an operation needs to keep it. A node that was adopted is cached though its
own configuration keeps no bytes, and a cached node may have no fields yet; what an unparsed node
must be for its parse to leave the tree coherent is part of the invariant of nodes.
-/

namespace CoinWire

open Holder Plain Workbench

/-! ## Nodes -/

/-- The node at the place is cached, and its bytes are the slice of `raw` at its offset. -/
structure AnyNode.IsSliceOf (place : Nat × AnyNode) (raw : Bytes) : Prop where
  cached : place.2.cached = true
  inside : place.1 + place.2.length ≤ raw.length
  bytes : place.2.raw = some ((raw.drop place.1).take place.2.length)

/-- If the node is cached, it holds bytes, and every node below it is cached and holds a slice of
them. -/
def AnyNode.Coherent (node : AnyNode) : Prop :=
  node.cached = true → ∃ raw, node.raw = some raw ∧ ∀ place ∈ node.below, IsSliceOf place raw

theorem AnyNode.Encodes.length_pos {node : AnyNode} {encoding : Bytes}
    (h : node.Encodes encoding) : 0 < encoding.length := by
  cases h with
  | header h => exact wire_pos _
  | body h => exact wire_pos _
  | transaction h => exact wire_pos _
  | input h => exact wire_pos _
  | output h => exact wire_pos _

/-- What lies in an encoding under a cached node is a slice of it. -/
theorem AnyNode.LiesIn.isSliceOf {place : Nat × AnyNode} {encoding : Bytes} {around : Prop}
    (h : LiesIn encoding around place) (haround : around) : IsSliceOf place encoding := by
  obtain ⟨⟨part, hpart, hfront⟩, hcached⟩ := h
  have hlength : place.2.length = part.length := hpart.length_eq
  refine ⟨hcached haround, ?_, ?_⟩
  · have hpos := hpart.length_pos
    have hfits := hfront.length_le
    rw [List.length_drop] at hfits
    omega
  · rw [hlength, ← List.prefix_iff_eq_take.1 hfront]
    exact hpart.raw_eq (hcached haround)

/-- Nodes that encode one value have their bytes at the places where its parts are encoded. -/
theorem AnyNode.Encodes.coherent {node : AnyNode} {encoding : Bytes}
    (h : node.Encodes encoding) : node.Coherent := by
  intro hcached
  refine ⟨encoding, h.raw_eq hcached, ?_⟩
  intro place hplace
  exact (h.liesIn_of_mem_below place hplace).isSliceOf hcached

/-! ## Blocks -/

/-- If the bytes of the whole block are held, every part is cached, and they are the bytes of the
header followed by those of the body. -/
def Block.Coherent (block : Block) : Prop :=
  ∀ raw, block.raw = some raw →
    ∃ front, block.header.cached = true ∧ block.header.raw = some front ∧
      match block.body with
      | none => raw = front
      | some body => ∃ back, body.cached = true ∧ body.raw = some back ∧ raw = front ++ back

/-- The bytes of a block that holds a value are those of its header and of its body. -/
theorem Block.Holds.coherent {block : Block} {v : PlainBlock} (h : block.Holds v) :
    block.Coherent := by
  intro raw hraw
  obtain ⟨rfl, hheader, hbody⟩ := h.raw raw hraw
  refine ⟨v.header.wire, hheader, (Node.Holds.cached h.header hheader).1, ?_⟩
  unfold PlainBlock.wire
  obtain ⟨hnone, hnone'⟩ | ⟨body, w, hsome, hw, hholds⟩ := h.body_cases
  · rw [hnone, hnone']
    exact List.append_nil _
  · rw [hsome, hw]
    have hcached : body.cached = true := hbody body hsome
    exact ⟨w.wire, hcached, (Node.Holds.cached hholds hcached).1, rfl⟩

/-! ## Workbenches -/

structure Workbench.Coherent (bench : Workbench Item) : Prop where
  nodes : ∀ node ∈ bench.nodes, node.Coherent
  blocks : ∀ block ∈ bench.blocks, block.Coherent

/-- After every run, no cached node lies above a stale one. -/
theorem coherent_run (operations : List Operation) :
    (run perform operations empty).2.Coherent := by
  have hholds := (run_mirrors operations .nil).2
  refine ⟨?_, ?_⟩
  · intro node hnode
    obtain ⟨encoding, hencodes⟩ := hholds.encodes_of_mem_nodes node hnode
    exact hencodes.coherent
  · intro block hblock
    obtain ⟨v, hv⟩ := hholds.block_of_mem block hblock
    exact hv.coherent

/-- A transaction with one input, left unparsed, then looked at, then edited at the input, then
written: the marks of both nodes come and go together. -/
example :
    let encoding := List.replicate 8 0 ++ [1] ++ List.replicate 41 0 ++ List.replicate 5 0
    let whole : Place := ⟨"a", none, none, none⟩
    let operations : List Operation :=
      [.make "a" (.transaction encoding ParseConfig.deferredRetain), .get whole .version,
        .set { whole with input := some 0 } (.sequence 7), .serialize whole]
    [1, 2, 3, 4].map (fun count ↦
      (run perform (operations.take count) empty).2.nodes.map AnyNode.cached) =
        [[true], [true, true], [false, false], [true, true]] := by
  cbv

end CoinWire
