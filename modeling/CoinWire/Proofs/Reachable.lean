import Mathlib
import CoinWire.Proofs.Invisibility
import CoinWire.Proofs.Tree

/-!
# Reachable workbenches

What holds of every node in every tree after any run. A node without fields holds exactly one
encoding that can be parsed, so nothing that waits for a parse can fail, and an operation on what is
there is refused only for want of a part. A cached node lies above cached nodes only, and each of
them holds its slice of the bytes above.
-/

namespace CoinWire

open Holder Plain Workbench

variable {F V : Type}

/-! ## Nodes in slots -/

/-- Header and body of a block, and all below the body. -/
def Block.nodes (block : Block) : List AnyNode :=
  .header block.header :: block.body.toList.flatMap fun node ↦ (AnyNode.body node).withBelow

def Item.nodes : Item → List AnyNode
  | .block value => value.nodes
  | .transaction value => (AnyNode.transaction value).withBelow
  | .input value => (AnyNode.input value).withBelow
  | .output value => (AnyNode.output value).withBelow

/-- The block that the item is, if it is one. -/
def Item.block? : Item → Option Block
  | .block value => some value
  | _ => none

namespace Workbench

/-- Every node in every slot. -/
def nodes (bench : Workbench Item) : List AnyNode :=
  bench.slots.flatMap fun slot ↦ slot.2.nodes

def blocks (bench : Workbench Item) : List Block :=
  bench.slots.filterMap fun slot ↦ slot.2.block?

end Workbench

theorem AnyNode.Encodes.withBelow {node : AnyNode} {encoding : Bytes} (h : node.Encodes encoding) :
    ∀ other ∈ node.withBelow, ∃ encoding', other.Encodes encoding' := by
  intro other hother
  obtain rfl | hother := List.mem_cons.1 hother
  · exact ⟨encoding, h⟩
  · obtain ⟨place, hplace, rfl⟩ := List.mem_map.1 hother
    obtain ⟨⟨part, hpart, -⟩, -⟩ := h.liesIn_of_mem_below place hplace
    exact ⟨part, hpart⟩

theorem Item.Holds.encodes_of_mem_nodes {item : Item} {v : PlainItem} (h : item.Holds v) :
    ∀ node ∈ item.nodes, ∃ encoding, node.Encodes encoding := by
  cases h with
  | @block block v h =>
    intro node hnode
    obtain rfl | hnode := List.mem_cons.1 hnode
    · exact ⟨_, .header h.header⟩
    · obtain ⟨body, hbody, hnode⟩ := List.mem_flatMap.1 hnode
      obtain ⟨hnone, -⟩ | ⟨body', w, hbody', -, hholds⟩ := h.body_cases
      · rw [hnone] at hbody
        contradiction
      · rw [hbody', Option.mem_toList] at hbody
        injection hbody with hsame
        subst hsame
        exact (AnyNode.Encodes.body hholds).withBelow node hnode
  | transaction h => exact (AnyNode.Encodes.transaction h).withBelow
  | input h => exact (AnyNode.Encodes.input h).withBelow
  | output h => exact (AnyNode.Encodes.output h).withBelow

namespace Workbench

variable {bench : Workbench Item} {plain : Workbench PlainItem}

/-- Every item of a workbench in step holds a plain item. -/
theorem Holds.item_of_mem (h : bench.Holds plain) :
    ∀ slot ∈ bench.slots, ∃ v, slot.2.Holds v := by
  intro slot hslot
  obtain ⟨slot', -, hitem⟩ := exists_forall₂_iff.1 ⟨plain.slots, h⟩ slot hslot
  exact ⟨slot'.2, hitem⟩

theorem Holds.encodes_of_mem_nodes (h : bench.Holds plain) :
    ∀ node ∈ bench.nodes, ∃ encoding, node.Encodes encoding := by
  intro node hnode
  obtain ⟨slot, hslot, hnode⟩ := List.mem_flatMap.1 hnode
  obtain ⟨v, hv⟩ := h.item_of_mem slot hslot
  exact hv.encodes_of_mem_nodes node hnode

theorem Holds.block_of_mem (h : bench.Holds plain) :
    ∀ block ∈ bench.blocks, ∃ v, block.Holds v := by
  intro block hblock
  obtain ⟨slot, hslot, hblock⟩ := List.mem_filterMap.1 hblock
  obtain ⟨v, hv⟩ := h.item_of_mem slot hslot
  obtain ⟨name, item⟩ := slot
  cases hv with
  | block hholds =>
    injection hblock with hblock
    subst hblock
    exact ⟨_, hholds⟩
  | transaction | input | output => contradiction

end Workbench

end CoinWire
