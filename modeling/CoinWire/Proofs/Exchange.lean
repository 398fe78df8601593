import Mathlib
import CoinWire.Proofs.Payloads
import CoinWire.Proofs.Reachable

/-!
# Reachable messages

Blocks and transactions come to be on a workbench or in a payload that was read. They may be put
into messages, written and compared there, and taken back to a workbench, in any order. However an
item came about, it holds a plain one, so every message of a known kind that is made of such items
holds a plain message.
-/

namespace CoinWire

open Workbench

/-! ## Items of a message -/

namespace Message

/-- The blocks and transactions in the message. -/
def items : Message → List Item
  | .headers blocks => blocks.map .block
  | .block whole => [.block whole]
  | .tx transaction => [.transaction transaction]
  | _ => []

variable {message left right : Message} {v : PlainMessage}

theorem Holds.item_of_mem (h : message.Holds v) : ∀ item ∈ message.items, ∃ w, item.Holds w := by
  cases h with
  | @headers blocks values h =>
    intro item hitem
    obtain ⟨block, hblock, rfl⟩ := List.mem_map.1 hitem
    obtain ⟨value, hholds⟩ := exists_forall₂_iff.1 ⟨values, h⟩ block hblock
    exact ⟨.block value, .block hholds⟩
  | block h => exact List.forall_mem_singleton.2 ⟨_, .block h⟩
  | tx h => exact List.forall_mem_singleton.2 ⟨_, .transaction h⟩
  | _ => exact List.forall_mem_nil _

/-- A message of a known kind holds a plain message if its items hold plain items. -/
theorem exists_holds (hknown : message.isKnown = true)
    (h : ∀ item ∈ message.items, ∃ w, item.Holds w) : ∃ v, message.Holds v := by
  cases message with
  | headers blocks =>
    have hblocks : ∀ block ∈ blocks, ∃ value, block.Holds value := by
      intro block hblock
      obtain ⟨_, hholds | _⟩ := h (.block block) (List.mem_map_of_mem hblock)
      exact ⟨_, hholds⟩
    obtain ⟨values, hvalues⟩ := exists_forall₂_iff.2 hblocks
    exact ⟨.headers values, .headers hvalues⟩
  | block whole =>
    obtain ⟨_, hholds | _⟩ := h (.block whole) (List.mem_singleton_self _)
    exact ⟨_, .block hholds⟩
  | tx transaction =>
    obtain ⟨_, _ | hholds⟩ := h (.transaction transaction) (List.mem_singleton_self _)
    exact ⟨_, .tx hholds⟩
  | unknown name payload => contradiction
  | _ => exact ⟨_, by constructor⟩

/-- Writing a message of no known kind leaves it as it is. -/
theorem payload_after_of_not_known (h : message.isKnown = false) :
    payload.after message = message := by
  cases message with
  | unknown name bytes => rfl
  | _ => contradiction

/-- Comparing with a message of no known kind leaves both as they are. -/
theorem compare_of_not_known (h : left.isKnown = false ∨ right.isKnown = false) :
    (compare left right).left = left ∧ (compare left right).right = right := by
  obtain hleft | hright := h
  · cases left with
    | unknown name bytes => cases right <;> exact ⟨rfl, rfl⟩
    | _ => contradiction
  · cases right with
    | unknown name bytes => cases left <;> exact ⟨rfl, rfl⟩
    | _ => contradiction

end Message

/-! ## Reachable items -/

/-- Blocks, transactions, inputs and outputs that a program can come to have. -/
inductive Item.Reachable : Item → Prop where
  /-- On a workbench that began with reachable items, after any run. -/
  | run {bench : Workbench Item} {slot : String × Item} (operations : List Operation)
    (hbench : ∀ slot ∈ bench.slots, slot.2.Reachable)
    (hslot : slot ∈ (run perform operations bench).2.slots) : slot.2.Reachable
  /-- In a message that was read from a payload. -/
  | parsed {parser : String × PayloadParser} {payload : Bytes} {config : ParseConfig}
    {message : Message} {item : Item} (hparser : parser ∈ PayloadParser.defaults)
    (hmessage : parser.2 payload config = .ok message) (hitem : item ∈ message.items) :
    item.Reachable
  /-- In a message after it was written. -/
  | written {message : Message} {item : Item} (hmessage : ∀ item ∈ message.items, item.Reachable)
    (hitem : item ∈ (Message.payload.after message).items) : item.Reachable
  /-- In one of two messages after they were compared. -/
  | compared {left right : Message} {item : Item} (hleft : ∀ item ∈ left.items, item.Reachable)
    (hright : ∀ item ∈ right.items, item.Reachable)
    (hitem : item ∈ (Message.compare left right).left.items ++
      (Message.compare left right).right.items) : item.Reachable

/-- What a source makes is reachable. -/
theorem Item.Reachable.of_make {source : Source} {item : Item} (h : source.make = .ok item) :
    item.Reachable := by
  have hslot : ("made", item) ∈
      (Workbench.run Workbench.perform [.make "made" source] Workbench.empty).2.slots := by
    rw [Workbench.run, Workbench.perform, h]
    exact List.mem_cons_self
  exact .run _ (List.forall_mem_nil _) hslot

/-- Every block and transaction in the message is reachable. -/
def Message.Reachable (message : Message) : Prop :=
  ∀ item ∈ message.items, item.Reachable

/-- A workbench whose items hold plain items is in step with one of plain items. -/
theorem Workbench.exists_holds {bench : Workbench Item}
    (h : ∀ slot ∈ bench.slots, ∃ v, slot.2.Holds v) : ∃ plain, bench.Holds plain := by
  have hslots : ∀ slot ∈ bench.slots, ∃ slot' : String × PlainItem,
      slot.1 = slot'.1 ∧ slot.2.Holds slot'.2 := by
    intro slot hslot
    obtain ⟨v, hv⟩ := h slot hslot
    exact ⟨(slot.1, v), rfl, hv⟩
  obtain ⟨slots, hholds⟩ := exists_forall₂_iff.2 hslots
  exact ⟨⟨slots⟩, hholds⟩

/-- What a parser makes of a payload holds a regular plain message of the parser's command. -/
theorem PayloadParser.exists_regular {parser : String × PayloadParser} (hmem : parser ∈ defaults)
    {payload : Bytes} {config : ParseConfig} {message : Message}
    (h : parser.2 payload config = .ok message) :
    ∃ v : PlainMessage, message.Holds v ∧ v.command = parser.1 ∧ v.Regular := by
  obtain ⟨entry, hentry, rfl⟩ := List.mem_map.1 hmem
  obtain ⟨after, hread⟩ := Access.answer_eq_ok_iff.1 h
  obtain ⟨v, hholds, hcommand, hregular, -⟩ := exists_regular_of_read hentry hread
  exact ⟨v, hholds, hcommand, hregular⟩

/-- However it came about, the item holds a plain one. -/
theorem Item.Reachable.holds {item : Item} (h : item.Reachable) : ∃ v, item.Holds v := by
  induction h with
  | run operations _ hslot ih =>
    obtain ⟨plain, hplain⟩ := Workbench.exists_holds ih
    exact (run_mirrors operations hplain).2.item_of_mem _ hslot
  | parsed hparser hmessage hitem =>
    obtain ⟨v, hholds, -⟩ := PayloadParser.exists_regular hparser hmessage
    exact hholds.item_of_mem _ hitem
  | @written message item _ hitem ih =>
    cases hknown : message.isKnown with
    | true =>
      obtain ⟨v, hholds⟩ := Message.exists_holds hknown ih
      obtain ⟨after, hpayload, hafter⟩ := hholds.payload
      rw [Access.after, hpayload] at hitem
      exact hafter.item_of_mem item hitem
    | false =>
      rw [Message.payload_after_of_not_known hknown] at hitem
      exact ih item hitem
  | @compared left right item _ _ hitem ihleft ihright =>
    by_cases hknown : left.isKnown = true ∧ right.isKnown = true
    · obtain ⟨v, hv⟩ := Message.exists_holds hknown.1 ihleft
      obtain ⟨w, hw⟩ := Message.exists_holds hknown.2 ihright
      obtain ⟨-, hleft, hright⟩ := hv.compare hw
      obtain hitem | hitem := List.mem_append.1 hitem
      · exact hleft.item_of_mem item hitem
      · exact hright.item_of_mem item hitem
    · rw [not_and_or, Bool.not_eq_true, Bool.not_eq_true] at hknown
      obtain ⟨hleft, hright⟩ := Message.compare_of_not_known hknown
      rw [hleft, hright, List.mem_append] at hitem
      exact hitem.elim (ihleft item) (ihright item)

/-- A reachable message of a known kind holds a plain message. -/
theorem Message.Reachable.holds {message : Message} (h : message.Reachable)
    (hknown : message.isKnown = true) : ∃ v, message.Holds v :=
  exists_holds hknown fun item hitem ↦ (h item hitem).holds

end CoinWire
