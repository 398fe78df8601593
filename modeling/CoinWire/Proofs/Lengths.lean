import Mathlib
import CoinWire.Proofs.Exchange
import CoinWire.Proofs.Growth.Routes

/-!
# Lengths

A length is that of the bytes held, where these are known to be the encoding, and is added up from
the fields else. Both are the length of the value's encoding, so a sum of lengths may take some from
bytes and some from fields, and it does not matter which parts were parsed, edited or written
before.
-/

namespace CoinWire

open Holder

variable {F V : Type}

/-! ## Nodes -/

namespace AnyNode

/-- The encoding of the node itself. -/
def encoding : AnyNode → Except CodecError Bytes
  | header node => Node.bytes.answer node
  | body node => Node.bytes.answer node
  | transaction node => Node.bytes.answer node
  | input node => Node.bytes.answer node
  | output node => Node.bytes.answer node

/-- The length that the fields add up to, if they are there. -/
def fieldsLength? : AnyNode → Option Nat
  | header node => node.parsed.map Layout.encodedLength
  | body node => node.parsed.map Layout.encodedLength
  | transaction node => node.parsed.map Layout.encodedLength
  | input node => node.parsed.map Layout.encodedLength
  | output node => node.parsed.map Layout.encodedLength

end AnyNode

section

variable [Layout F] [Plain V] [Holder F V] [LawfulLayout F V] {node : Node F} {v : V}

theorem Node.Holds.answer_bytes (h : node.Holds v) :
    Node.bytes.answer node = .ok (Plain.wire v) := by
  obtain ⟨encoding, node', hbytes, rfl⟩ := Node.looks_bytes.exists_ok h
  exact Access.answer_eq_ok hbytes

theorem Node.Holds.fieldsLength_eq (h : node.Holds v) {size : Nat}
    (hsize : node.parsed.map Layout.encodedLength = some size) : size = (Plain.wire v).length := by
  obtain ⟨fields, hparsed, rfl⟩ := Option.map_eq_some_iff.1 hsize
  exact LawfulLayout.encodedLength_eq (h.parsed fields hparsed)

end

namespace AnyNode

variable {node : AnyNode} {bytes : Bytes} {size : Nat}

theorem Encodes.encoding_eq (h : node.Encodes bytes) : node.encoding = .ok bytes := by
  cases h with
  | header h | body h | transaction h | input h | output h => exact Node.Holds.answer_bytes h

/-- The fields add up to the length of the encoding, whether or not bytes are held beside them. -/
theorem Encodes.fieldsLength_eq (h : node.Encodes bytes) (hsize : node.fieldsLength? = some size) :
    size = bytes.length := by
  cases h with
  | header h | body h | transaction h | input h | output h =>
    exact Node.Holds.fieldsLength_eq h hsize

end AnyNode

/-! ## Places -/

namespace Inquiry

theorem length_lookTransaction? (place : Place) (tx : Tx) :
    length.lookTransaction? place tx =
      (Option.map List.length ·) <$> bytes.lookTransaction? place tx := by
  unfold lookTransaction?
  cases place.input with
  | some index =>
    dsimp only [Question.at?]
    cases tx.inputs[index]? <;> rfl
  | none =>
    cases place.output with
    | some index =>
      dsimp only [Question.at?]
      cases tx.outputs[index]? <;> rfl
    | none => rfl

theorem length_lookBlock? (place : Place) (block : PlainBlock) :
    length.lookBlock? place block =
      (Option.map List.length ·) <$> bytes.lookBlock? place block := by
  unfold lookBlock?
  cases place.transaction with
  | none => rfl
  | some index =>
    obtain ⟨header, body⟩ := block
    cases body with
    | none => rfl
    | some body =>
      dsimp only [PlainBlock.askBody, Question.at?]
      cases body.transactions[index]? with
      | none => rfl
      | some tx =>
        dsimp only
        rw [length_lookTransaction?]
        cases bytes.lookTransaction? place tx <;> rfl

/-- Of plain values the length is that of the encoding, at any place. -/
theorem length_look? (place : Place) (v : PlainItem) :
    length.look? place v = (Option.map List.length ·) <$> bytes.look? place v := by
  cases v with
  | block v => exact length_lookBlock? place v
  | transaction v => exact length_lookTransaction? place v
  | input v | output v => rfl

end Inquiry

/-- The length of a value is that of its encoding. So it is at every place inside it, whether a look
finds a value there or none, and at every node of the tree, whatever was parsed, edited, moved or
written before. -/
theorem Item.Reachable.length_eq_length_bytes {item : Item} (hitem : item.Reachable) :
    (∃ bytes, Visit.bytes.onItem.answer item = .ok bytes ∧ item.length = bytes.length) ∧
    (∀ place, (Visit.length.look? place).answer item =
      (Option.map List.length ·) <$> (Visit.bytes.look? place).answer item) ∧
    ∀ route node, item.at? route = some node → ∃ bytes, node.encoding = .ok bytes ∧
      node.length = bytes.length ∧
        ∀ size, node.fieldsLength? = some size → size = bytes.length := by
  obtain ⟨v, hv⟩ := hitem.holds
  refine ⟨⟨v.wire, Visit.answer_bytes_onItem hv, hv.length_eq⟩, ?_, ?_⟩
  · intro place
    rw [Visit.asks_length.answer_look? hv, Visit.asks_bytes.answer_look? hv,
      Inquiry.length_look? place v]
    cases Inquiry.bytes.look? place v <;> rfl
  · intro route node hnode
    obtain ⟨bytes, hencodes⟩ := hv.exists_encodes hnode
    exact ⟨bytes, hencodes.encoding_eq, hencodes.length_eq, fun _ ↦ hencodes.fieldsLength_eq⟩

/-- In a block of two transactions of which nothing was parsed the lock time of the first one was
set. The body and this transaction are stale now, the header and the other transaction are held as
bytes, and an output that a look finds in there is not parsed yet. -/
theorem Item.Reachable.length_eq_length_bytes_mixed :
    let encoding : Bytes := List.replicate 9 0 ++ [1] ++ List.replicate 9 0 ++ List.replicate 4 0
    let whole : Bytes := List.replicate 80 0 ++ [2] ++ encoding ++ encoding ++ [0]
    let place : Place := ⟨"a", some 1, none, some 0⟩
    ∃ item : Item, item.Reachable ∧ (item.at? [.header]).map AnyNode.cached = some true ∧
      (item.at? [.body]).map AnyNode.cached = some false ∧
      (item.at? [.body, .transaction 0]).map AnyNode.cached = some false ∧
      (item.at? [.body, .transaction 1]).map AnyNode.isParsed = some false ∧
      (∃ bytes, Visit.bytes.onItem.answer item = .ok bytes ∧ item.length = bytes.length ∧
        bytes.length = whole.length) ∧
      ∃ bytes, (Visit.bytes.look? place).answer item = .ok (some bytes) ∧
        (Visit.length.look? place).answer item = .ok (some bytes.length) := by
  intro encoding whole place
  obtain ⟨item, operations, hslots, hmarks⟩ : ∃ item operations,
      (Workbench.run Workbench.perform operations Workbench.empty).2.slots = [("a", item)] ∧
      (item.at? [.header]).map AnyNode.cached = some true ∧
      (item.at? [.body]).map AnyNode.cached = some false ∧
      (item.at? [.body, .transaction 0]).map AnyNode.cached = some false ∧
      (item.at? [.body, .transaction 1]).map AnyNode.isParsed = some false ∧
      item.length = whole.length ∧
      (Visit.bytes.look? place).answer item = .ok (some (List.replicate 9 0)) :=
    ⟨_, [.make "a" (.block whole .deferredRetain), .set ⟨"a", some 0, none, none⟩ (.lockTime 9)],
      by cbv, by cbv, by cbv, by cbv, by cbv, by cbv, by cbv⟩
  have hslot : ("a", item) ∈
      (Workbench.run Workbench.perform operations Workbench.empty).2.slots := by
    rw [hslots]
    exact List.mem_cons_self
  have hreachable : item.Reachable := .run operations (List.forall_mem_nil _) hslot
  obtain ⟨⟨bytes, hbytes, hlength⟩, hplaces, -⟩ := hreachable.length_eq_length_bytes
  obtain ⟨hheader, hbody, hfirst, hsecond, hwhole, hfound⟩ := hmarks
  refine ⟨item, hreachable, hheader, hbody, hfirst, hsecond,
    ⟨bytes, hbytes, hlength, hlength ▸ hwhole⟩, _, hfound, ?_⟩
  rw [hplaces, hfound]
  rfl

end CoinWire
