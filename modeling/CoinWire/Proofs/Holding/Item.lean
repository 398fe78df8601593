import Mathlib
import CoinWire.Proofs.Holding.Workbench

/-!
# Whole items

An item is visited as a whole, not at a place in it. What a visit answers, the plain item that the
item holds answers too.
-/

namespace CoinWire

open Holder

variable {σ V α β : Type}

/-- The kinds of values. Only values of one kind are compared. -/
inductive ItemKind where
  | block
  | transaction
  | input
  | output
deriving DecidableEq

def Item.kind : Item → ItemKind
  | .block _ => .block
  | .transaction _ => .transaction
  | .input _ => .input
  | .output _ => .output

/-- Size of the encoding. Nothing is parsed for it. -/
def Item.length : Item → Nat
  | .block value => value.length
  | .transaction value => value.length
  | .input value => value.length
  | .output value => value.length

/-- The visit of the item itself. -/
def Visit.onItem (visit : Visit α) : Access Item α
  | .block block => Access.mapState .block (visit.block block)
  | .transaction transaction => Access.mapState .transaction (visit.transaction transaction)
  | .input input => Access.mapState .input (visit.input input)
  | .output output => Access.mapState .output (visit.output output)

namespace PlainItem

def kind : PlainItem → ItemKind
  | .block _ => .block
  | .transaction _ => .transaction
  | .input _ => .input
  | .output _ => .output

def wire : PlainItem → Bytes
  | .block v => v.wire
  | .transaction v => v.wire
  | .input v => v.wire
  | .output v => v.wire

end PlainItem

def Inquiry.onItem (inquiry : Inquiry β) : Question PlainItem β
  | .block v => inquiry.block v
  | .transaction v => inquiry.transaction v
  | .input v => inquiry.input v
  | .output v => inquiry.output v

theorem Inquiry.bytes_onItem (v : PlainItem) : Inquiry.bytes.onItem v = .ok v.wire := by
  cases v <;> rfl

theorem Item.Holds.kind_eq {item : Item} {v : PlainItem} (h : item.Holds v) :
    item.kind = v.kind := by
  cases h <;> rfl

theorem Item.Holds.length_eq {item : Item} {v : PlainItem} (h : item.Holds v) :
    item.length = v.wire.length := by
  cases h with
  | block h => exact Block.Holds.length_eq h
  | transaction h => exact Node.Holds.length_eq h
  | input h => exact Node.Holds.length_eq h
  | output h => exact Node.Holds.length_eq h

namespace Visit

variable {visit : Visit α} {inquiry : Inquiry α} {item : Item} {v : PlainItem}

/-- A visit that asks answers of the item what the inquiry answers of the plain item. -/
theorem Asks.onItem (h : visit.Asks Eq inquiry) (hitem : item.Holds v) {a : α}
    (ha : inquiry.onItem v = .ok a) :
    ∃ item', visit.onItem item = .ok a item' ∧ item'.Holds v := by
  cases hitem with
  | block hs =>
    obtain ⟨_, s', hs', rfl, hholds⟩ := h.block.exists_of_ok hs ha
    exact ⟨.block s', by rw [Visit.onItem, hs']; rfl, .block hholds⟩
  | transaction hs =>
    obtain ⟨_, s', hs', rfl, hholds⟩ := h.transaction.exists_of_ok hs ha
    exact ⟨.transaction s', by rw [Visit.onItem, hs']; rfl, .transaction hholds⟩
  | input hs =>
    obtain ⟨_, s', hs', rfl, hholds⟩ := h.input.exists_of_ok hs ha
    exact ⟨.input s', by rw [Visit.onItem, hs']; rfl, .input hholds⟩
  | output hs =>
    obtain ⟨_, s', hs', rfl, hholds⟩ := h.output.exists_of_ok hs ha
    exact ⟨.output s', by rw [Visit.onItem, hs']; rfl, .output hholds⟩

theorem Asks.answer_onItem (h : visit.Asks Eq inquiry) (hitem : item.Holds v) {a : α}
    (ha : inquiry.onItem v = .ok a) : visit.onItem.answer item = .ok a := by
  obtain ⟨item', hanswer, -⟩ := h.onItem hitem ha
  exact Access.answer_eq_ok hanswer

/-- At any place it answers what the inquiry answers there, or fails for want of the same part. -/
theorem Asks.answer_look? (h : visit.Asks Eq inquiry) (hitem : item.Holds v) (place : Place) :
    (visit.look? place).answer item = (inquiry.look? place v).mapError Absence.error := by
  obtain ⟨a, item', b, w, ha, hb, hab, -⟩ | ⟨e, item', he, hf, -⟩ := h.look? place item v hitem
  · rw [Access.answer_eq_ok ha, eq_of_rel_eq hab]
    unfold Change.ask at hb
    cases hanswer : inquiry.look? place v with
    | error e =>
      rw [hanswer] at hb
      contradiction
    | ok found =>
      rw [hanswer] at hb
      obtain ⟨rfl, -⟩ := Prod.mk.inj (Except.ok.inj hb)
      rfl
  · rw [Access.answer, he]
    unfold Change.ask at hf
    cases hanswer : inquiry.look? place v with
    | error e' =>
      rw [hanswer] at hf
      rw [Except.error.inj hf]
      rfl
    | ok found =>
      rw [hanswer] at hf
      contradiction

/-- The encoding of an item is that of the plain item it holds. -/
theorem answer_bytes_onItem (hitem : item.Holds v) : bytes.onItem.answer item = .ok v.wire :=
  asks_bytes.answer_onItem hitem (Inquiry.bytes_onItem v)

end Visit

end CoinWire
