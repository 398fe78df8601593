import Mathlib
import CoinWire.Proofs.Holding.Workbench

/-!
# The nodes of a tree

A parsed node has its children below it, an unparsed one has none yet. A node below another lies at
an offset in its encoding, which the sizes of what is in front of it add up to. What a tree holds,
each of its nodes holds at its own place: the encoding of a node below is found in the encoding
above, and all below a cached node is cached.
-/

namespace CoinWire

open Holder Plain

inductive AnyNode where
  | header (node : Node Header)
  | body (node : Node BodyFields)
  | transaction (node : Transaction)
  | input (node : Input)
  | output (node : Output)

/-- Nodes that lie one after the other, the first at `start`, with the offset of each. -/
def Node.placed {F : Type} [Layout F] (start : Nat) : List (Node F) → List (Nat × Node F)
  | [] => []
  | node :: rest => (start, node) :: placed (start + node.length) rest

/-- The inputs and outputs that are there, with their offsets in the transaction. -/
def Transaction.below (transaction : Transaction) : List (Nat × AnyNode) :=
  match transaction.parsed with
  | none => []
  | some fields =>
    let inputs := 8 + VarInt.lengthSize fields.inputs.length
    let outputs :=
      inputs + Node.totalLength fields.inputs + VarInt.lengthSize fields.outputs.length
    (Node.placed inputs fields.inputs).map (Prod.map id AnyNode.input) ++
      (Node.placed outputs fields.outputs).map (Prod.map id AnyNode.output)

/-- The transactions that are there and all below them, with their offsets in the body. -/
def BodyFields.below (body : Node BodyFields) : List (Nat × AnyNode) :=
  match body.parsed with
  | none => []
  | some fields =>
    let transactions := VarInt.lengthSize fields.transactions.length
    (Node.placed transactions fields.transactions).flatMap fun (offset, transaction) ↦
      (offset, .transaction transaction) ::
        (Transaction.below transaction).map (Prod.map (offset + ·) id)

namespace AnyNode

def raw : AnyNode → Option Bytes
  | header node => node.raw
  | body node => node.raw
  | transaction node => node.raw
  | input node => node.raw
  | output node => node.raw

def cached : AnyNode → Bool
  | header node => node.cached
  | body node => node.cached
  | transaction node => node.cached
  | input node => node.cached
  | output node => node.cached

def length : AnyNode → Nat
  | header node => node.length
  | body node => node.length
  | transaction node => node.length
  | input node => node.length
  | output node => node.length

/-- Every node below, with its offset. -/
def below : AnyNode → List (Nat × AnyNode)
  | header _ => []
  | body node => BodyFields.below node
  | transaction node => Transaction.below node
  | input _ => []
  | output _ => []

/-- The node and every node below it. -/
def withBelow (node : AnyNode) : List AnyNode :=
  node :: node.below.map Prod.snd

/-- The node holds a value with this encoding. -/
inductive Encodes : AnyNode → Bytes → Prop where
  | header {node : Node Header} {v : Header} (h : Holds node v) : Encodes (header node) (wire v)
  | body {node : Node BodyFields} {v : Body} (h : Holds node v) : Encodes (body node) (wire v)
  | transaction {node : Transaction} {v : Tx} (h : Holds node v) :
    Encodes (transaction node) (wire v)
  | input {node : Input} {v : TxIn} (h : Holds node v) : Encodes (input node) (wire v)
  | output {node : Output} {v : TxOut} (h : Holds node v) : Encodes (output node) (wire v)

theorem Encodes.length_eq {node : AnyNode} {encoding : Bytes} (h : node.Encodes encoding) :
    node.length = encoding.length := by
  cases h with
  | header h => exact Node.Holds.length_eq h
  | body h => exact Node.Holds.length_eq h
  | transaction h => exact Node.Holds.length_eq h
  | input h => exact Node.Holds.length_eq h
  | output h => exact Node.Holds.length_eq h

theorem Encodes.raw_eq {node : AnyNode} {encoding : Bytes} (h : node.Encodes encoding)
    (hcached : node.cached = true) : node.raw = some encoding := by
  cases h with
  | header h => exact (Node.Holds.cached h hcached).1
  | body h => exact (Node.Holds.cached h hcached).1
  | transaction h => exact (Node.Holds.cached h hcached).1
  | input h => exact (Node.Holds.cached h hcached).1
  | output h => exact (Node.Holds.cached h hcached).1

/-- The node at the place holds a value whose encoding is found there, and it is cached if all
around it is. -/
def LiesIn (encoding : Bytes) (around : Prop) (place : Nat × AnyNode) : Prop :=
  (∃ part, place.2.Encodes part ∧ part <+: encoding.drop place.1) ∧
    (around → place.2.cached = true)

end AnyNode

open AnyNode

/-- Nodes that hold values lie where the encodings of the values follow each other. -/
theorem Node.liesIn_of_mem_placed {F V : Type} [Layout F] [Plain V] [Holder F V] [LawfulLayout F V]
    {nodes : List (Node F)} {vs : List V} (h : Holder.Holds nodes vs) {encoding rest : Bytes}
    {start : Nat} (hstart : encoding.drop start = vs.flatMap wire ++ rest) :
    ∀ place ∈ Node.placed start nodes, place.2 ∈ nodes ∧
      ∃ v, Node.Holds place.2 v ∧ wire v <+: encoding.drop place.1 := by
  induction h generalizing start with
  | nil => exact List.forall_mem_nil _
  | @cons node v nodes vs hhead htail ih =>
    rw [List.flatMap_cons, List.append_assoc] at hstart
    rw [placed, List.forall_mem_cons]
    refine ⟨⟨List.mem_cons_self, v, hhead, ?_⟩, ?_⟩
    · rw [hstart]
      exact List.prefix_append _ _
    · have hnext : encoding.drop (start + node.length) = vs.flatMap wire ++ rest := by
        calc
          encoding.drop (start + node.length) = (encoding.drop start).drop node.length :=
            List.drop_drop.symm
          _ = (wire v ++ (vs.flatMap wire ++ rest)).drop node.length := by rw [hstart]
          _ = vs.flatMap wire ++ rest := List.drop_left' (Node.Holds.length_eq hhead).symm
      intro place hplace
      obtain ⟨hmem, hlies⟩ := ih hnext place hplace
      exact ⟨List.mem_cons_of_mem _ hmem, hlies⟩

/-- The inputs and outputs of a transaction lie in its encoding. -/
theorem Transaction.liesIn_of_mem_below {transaction : Transaction} {tx : Tx}
    (h : Holds transaction tx) :
    ∀ place ∈ Transaction.below transaction,
      LiesIn (wire tx) (transaction.cached = true) place := by
  unfold Transaction.below
  cases hparsed : transaction.parsed with
  | none => exact List.forall_mem_nil _
  | some fields =>
    have hfields : TxFields.Holds fields tx := Node.Holds.parsed h fields hparsed
    have hcached (hnode : transaction.cached = true) :
        Cached fields.inputs ∧ Cached fields.outputs :=
      (Node.Holds.cached h hnode).2 fields hparsed
    obtain ⟨hinputs, houtputs⟩ := TxFields.drop_wire hfields
    intro place hplace
    dsimp only at hplace
    obtain hplace | hplace := List.mem_append.1 hplace
    · obtain ⟨⟨offset, input⟩, hmem, rfl⟩ := List.mem_map.1 hplace
      obtain ⟨hnodes, v, hv, hfront⟩ :=
        Node.liesIn_of_mem_placed hfields.inputs hinputs _ hmem
      exact ⟨⟨wire v, .input hv, hfront⟩, fun hnode ↦ (hcached hnode).1 input hnodes⟩
    · obtain ⟨⟨offset, output⟩, hmem, rfl⟩ := List.mem_map.1 hplace
      obtain ⟨hnodes, v, hv, hfront⟩ :=
        Node.liesIn_of_mem_placed hfields.outputs houtputs _ hmem
      exact ⟨⟨wire v, .output hv, hfront⟩, fun hnode ↦ (hcached hnode).2 output hnodes⟩

/-- A transaction lies in the body's encoding, and what lies in the transaction lies so far
behind. -/
theorem BodyFields.liesIn_of_mem_below {node : Node BodyFields} {body : Body}
    (h : Holder.Holds node body) :
    ∀ place ∈ BodyFields.below node, LiesIn (wire body) (node.cached = true) place := by
  unfold BodyFields.below
  cases hparsed : node.parsed with
  | none => exact List.forall_mem_nil _
  | some fields =>
    have hfields : BodyFields.Holds fields body := Node.Holds.parsed h fields hparsed
    have hcached (hnode : node.cached = true) : Cached fields.transactions :=
      (Node.Holds.cached h hnode).2 fields hparsed
    intro place hplace
    obtain ⟨⟨offset, transaction⟩, hmem, hplace⟩ := List.mem_flatMap.1 hplace
    obtain ⟨hnodes, tx, htx, hfront⟩ :=
      Node.liesIn_of_mem_placed hfields.transactions (BodyFields.drop_wire hfields) _ hmem
    dsimp only at hplace htx hfront hnodes
    obtain rfl | hplace := List.mem_cons.1 hplace
    · exact ⟨⟨wire tx, .transaction htx, hfront⟩, fun hnode ↦ hcached hnode transaction hnodes⟩
    · obtain ⟨⟨inner, child⟩, hchild, rfl⟩ := List.mem_map.1 hplace
      obtain ⟨⟨part, hpart, hinner⟩, hcachedChild⟩ :=
        Transaction.liesIn_of_mem_below htx _ hchild
      refine ⟨⟨part, hpart, ?_⟩, fun hnode ↦ hcachedChild (hcached hnode transaction hnodes)⟩
      change part <+: (wire body).drop (offset + inner)
      rw [← List.drop_drop]
      exact hinner.trans (hfront.drop inner)

theorem AnyNode.Encodes.liesIn_of_mem_below {node : AnyNode} {encoding : Bytes}
    (h : node.Encodes encoding) :
    ∀ place ∈ node.below, LiesIn encoding (node.cached = true) place := by
  cases h with
  | header h => exact List.forall_mem_nil _
  | body h => exact BodyFields.liesIn_of_mem_below h
  | transaction h => exact Transaction.liesIn_of_mem_below h
  | input h => exact List.forall_mem_nil _
  | output h => exact List.forall_mem_nil _

end CoinWire
