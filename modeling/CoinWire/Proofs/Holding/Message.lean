import Mathlib
import CoinWire.Message
import CoinWire.Proofs.Holding.Report

/-!
# Messages that hold a value

A message of a known command stands for a plain one, whose blocks and transactions are values
without caches. Its payload is the encoding of the plain message, and two messages compare as the
plain ones do.
-/

namespace CoinWire

open Holder

/-- A message of a known command, without caches. -/
inductive PlainMessage where
  | version (version : Version)
  | verack
  | addr (peers : List PeerAddress)
  | inv (items : List InventoryItem)
  | getData (items : List InventoryItem)
  | notFound (items : List InventoryItem)
  | getBlocks (locator : Locator)
  | getHeaders (locator : Locator)
  | headers (blocks : List PlainBlock)
  | block (block : PlainBlock)
  | tx (tx : Tx)
  | ping (nonce : Option UInt64)
  | pong (nonce : UInt64)
  | getAddr
  | memPool

/-- The plain encoding of the payload. -/
def PlainMessage.wire : PlainMessage → Bytes
  | version greeting => greeting.wire
  | addr peers => Message.list PeerAddress.wire peers
  | inv items | getData items | notFound items => Message.list InventoryItem.wire items
  | getBlocks locator | getHeaders locator => locator.wire
  | headers blocks => Message.list PlainBlock.wire blocks
  | block whole => whole.wire
  | tx transaction => transaction.wire
  | ping nonce => (nonce.map Bytes.ofUInt64).getD []
  | pong nonce => Bytes.ofUInt64 nonce
  | verack | getAddr | memPool => []

namespace Message

/-- The message is of one of the kinds that have a payload format. -/
def isKnown : Message → Bool
  | .unknown .. => false
  | _ => true

inductive Holds : Message → PlainMessage → Prop where
  | version (greeting : Version) : Holds (.version greeting) (.version greeting)
  | verack : Holds .verack .verack
  | addr (peers : List PeerAddress) : Holds (.addr peers) (.addr peers)
  | inv (items : List InventoryItem) : Holds (.inv items) (.inv items)
  | getData (items : List InventoryItem) : Holds (.getData items) (.getData items)
  | notFound (items : List InventoryItem) : Holds (.notFound items) (.notFound items)
  | getBlocks (locator : Locator) : Holds (.getBlocks locator) (.getBlocks locator)
  | getHeaders (locator : Locator) : Holds (.getHeaders locator) (.getHeaders locator)
  | headers {blocks : List Block} {values : List PlainBlock} (h : Holder.Holds blocks values) :
    Holds (.headers blocks) (.headers values)
  | block {whole : Block} {value : PlainBlock} (h : Holder.Holds whole value) :
    Holds (.block whole) (.block value)
  | tx {transaction : Transaction} {value : Tx} (h : Holder.Holds transaction value) :
    Holds (.tx transaction) (.tx value)
  | ping (nonce : Option UInt64) : Holds (.ping nonce) (.ping nonce)
  | pong (nonce : UInt64) : Holds (.pong nonce) (.pong nonce)
  | getAddr : Holds .getAddr .getAddr
  | memPool : Holds .memPool .memPool

variable {message left right : Message} {v w : PlainMessage}

/-- The payload can be written, and it is the plain encoding. -/
theorem Holds.payload (h : message.Holds v) :
    ∃ after, Message.payload message = .ok v.wire after ∧ after.Holds v := by
  cases h with
  | @headers blocks values h =>
    obtain ⟨encodings, blocks', hencodings, rfl, hblocks'⟩ :=
      Block.looks_bytes.each.edits.exists_ok h
    have hwire : list id (values.map PlainBlock.wire) = list PlainBlock.wire values := by
      simp [list, VarInt.ofLength, List.flatMap_map]
    refine ⟨.headers blocks', ?_, .headers hblocks'⟩
    refine Access.mapState_eq_ok_iff.2 ⟨blocks', ?_, rfl⟩
    rw [Access.map_apply, hencodings, PlainMessage.wire, ← hwire]
  | block h =>
    obtain ⟨_, whole, hwhole, rfl, hholds⟩ := Block.edits_serialize.exists_ok h
    exact ⟨.block whole, Access.mapState_eq_ok_iff.2 ⟨whole, hwhole, rfl⟩, .block hholds⟩
  | tx h =>
    obtain ⟨_, transaction, hwritten, rfl, hholds⟩ := Node.edits_serialize.exists_ok h
    exact ⟨.tx transaction, Access.mapState_eq_ok_iff.2 ⟨transaction, hwritten, rfl⟩, .tx hholds⟩
  | _ => exact ⟨_, rfl, by constructor⟩

/-- The verdict is that of the plain messages, and both sides still hold them. -/
theorem Holds.compare (hv : left.Holds v) (hw : right.Holds w) :
    ((Message.compare left right).equal = true ↔ v = w) ∧
      (Message.compare left right).left.Holds v ∧ (Message.compare left right).right.Holds w := by
  cases hv with
  | headers h =>
    cases hw with
    | headers h' =>
      have hblocks := compares_lists Block.compares h h'
      rw [PlainMessage.headers.injEq, ← hblocks.equal]
      exact ⟨Iff.rfl, .headers hblocks.left.1, .headers hblocks.right.1⟩
    | _ => exact ⟨iff_of_false Bool.false_ne_true nofun, .headers h, by constructor <;> assumption⟩
  | block h =>
    cases hw with
    | block h' =>
      have hblock := Block.compares h h'
      rw [PlainMessage.block.injEq, ← hblock.equal]
      exact ⟨Iff.rfl, .block hblock.left.1, .block hblock.right.1⟩
    | _ => exact ⟨iff_of_false Bool.false_ne_true nofun, .block h, by constructor <;> assumption⟩
  | tx h =>
    cases hw with
    | tx h' =>
      have htx := Node.compares h h'
      rw [PlainMessage.tx.injEq, ← htx.equal]
      exact ⟨Iff.rfl, .tx htx.left.1, .tx htx.right.1⟩
    | _ => exact ⟨iff_of_false Bool.false_ne_true nofun, .tx h, by constructor <;> assumption⟩
  | _ =>
    cases hw <;> refine ⟨?_, by constructor, by constructor <;> assumption⟩ <;>
      simp [Message.compare]

end Message

end CoinWire
