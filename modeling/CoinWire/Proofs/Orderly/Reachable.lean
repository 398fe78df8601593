import Mathlib
import CoinWire.Proofs.Orderly.Item

/-!
# Reachable trees are in order

Sources and parsers make trees in order, and a workbench keeps them so. By induction on what was
run, written and compared, every tree that a program can come to have is in order.
-/

namespace CoinWire

open Workbench

variable {α β : Type}

/-! ## Sources -/

theorem exists_of_map_eq_ok {ε : Type} {f : α → β} {outcome : Except ε α} {b : β}
    (h : f <$> outcome = .ok b) : ∃ a, outcome = .ok a ∧ f a = b := by
  cases outcome with
  | error e => contradiction
  | ok a => exact ⟨a, rfl, Except.ok.inj h⟩

/-- What a source makes is in order. -/
theorem Source.orderly {source : Source} {item : Item} (h : source.make = .ok item) :
    item.Orderly := by
  have hplain {F : Type} [Grown F] [Ordered F] (fields : F) (hfields : Ordered.Orderly fields) :
      (Node.ofFields fields ParseConfig.eager).Orderly := (Node.orderly_ofFields hfields _).1
  cases source with
  | block bytes config =>
    obtain ⟨block, hread, rfl⟩ := exists_of_map_eq_ok h
    exact .block ((Block.yields_read config).answer hread)
  | header bytes config =>
    obtain ⟨block, hread, rfl⟩ := exists_of_map_eq_ok h
    obtain ⟨header, hheader, rfl⟩ := exists_of_map_eq_ok hread
    have horderly := ((Node.yields_read config).answer hheader).orderly
    exact .block (Block.OrderlyUnder.orderly ⟨horderly, nofun⟩)
  | blockAt bytes offset config =>
    obtain ⟨block, hread, rfl⟩ := exists_of_map_eq_ok h
    have hyields := (Read.Yields.any (Read.skip offset)).bind fun _ _ ↦ Block.yields_read config
    exact .block (hyields.answer hread)
  | transaction bytes config =>
    obtain ⟨node, hread, rfl⟩ := exists_of_map_eq_ok h
    exact .transaction ((Node.yields_read config).answer hread).orderly.1
  | input bytes config =>
    obtain ⟨node, hread, rfl⟩ := exists_of_map_eq_ok h
    exact .input ((Node.yields_read config).answer hread).orderly.1
  | output bytes config =>
    obtain ⟨node, hread, rfl⟩ := exists_of_map_eq_ok h
    exact .output ((Node.yields_read config).answer hread).orderly.1
  | newBlock fields =>
    injection h with h
    rw [← h]
    exact .block (Block.OrderlyUnder.orderly ⟨Node.orderly_ofFields trivial _, nofun⟩)
  | newTransaction time =>
    injection h with h
    rw [← h]
    exact .transaction (hplain _ ⟨List.forall_mem_nil _, List.forall_mem_nil _⟩)
  | newInput outPoint script =>
    injection h with h
    rw [← h]
    exact .input (hplain _ trivial)
  | newCoinbase script =>
    injection h with h
    rw [← h]
    exact .input (hplain _ trivial)
  | newOutput value script =>
    injection h with h
    rw [← h]
    exact .output (hplain _ trivial)

/-! ## Workbenches -/

namespace Workbench

/-- Every item in a slot is in order. -/
def Orderly (bench : Workbench Item) : Prop :=
  ∀ slot ∈ bench.slots, slot.2.Orderly

variable {bench : Workbench Item}

theorem Orderly.of_get? (h : bench.Orderly) {slot : String} {item : Item}
    (hitem : bench.get? slot = some item) : item.Orderly := by
  obtain ⟨before, after, hslots, -⟩ := List.lookup_eq_some_iff.1 hitem
  refine h (slot, item) ?_
  rw [hslots]
  exact List.mem_append_right before List.mem_cons_self

theorem Orderly.put (h : bench.Orderly) (slot : String) {item : Item} (hitem : item.Orderly) :
    (bench.put slot item).Orderly :=
  List.forall_mem_cons.2 ⟨hitem, fun other hother ↦ h other (List.mem_of_mem_filter hother)⟩

theorem keeps_put (slot : String) {item : Item} (h : item.Orderly) :
    Keeps Orderly (do modify (Workbench.put slot item); return .done : Work Item Answer)
      fun _ ↦ True :=
  (Keeps.modify fun _ hbench ↦ hbench.put slot h).answer fun _ _ ↦ trivial

variable {P : α → Prop}

theorem keeps_onSlot {access : Access Item α} (h : Keeps Item.Orderly access P) (slot : String) :
    Keeps Orderly (onSlot slot access) P := by
  intro bench hbench
  rw [onSlot_apply]
  cases hitem : bench.get? slot with
  | none => exact hbench
  | some item =>
    have hkept := h item (hbench.of_get? hitem)
    dsimp only
    cases hrun : access item with
    | ok a item' =>
      rw [hrun] at hkept
      exact ⟨hbench.put slot hkept.1, hkept.2⟩
    | error e item' =>
      rw [hrun] at hkept
      exact hbench.put slot hkept

theorem keeps_look {visit : Visit α} (h : visit.KeepsOrder P) (place : Place) :
    Keeps Orderly (look place visit) P := by
  apply (keeps_onSlot (h.look? place) place.slot).bind
  rintro (_ | a) ha
  · exact .throw _
  · exact .pure (ha a rfl)

theorem keeps_reach {visit : Visit α} (h : visit.KeepsOrder P) (place : Place) :
    Keeps Orderly (reach place visit) P :=
  keeps_onSlot (h.reach place) place.slot

/-- One operation keeps a workbench in order. -/
theorem keeps_perform (operation : Operation) :
    Keeps Orderly (perform operation) fun _ ↦ True := by
  cases operation with
  | make slot source =>
    rw [perform]
    cases hmake : source.make with
    | ok item => exact keeps_put slot (Source.orderly hmake)
    | error e => exact .throw _
  | copy place target =>
    exact (keeps_look Visit.keepsOrder_found place).bind fun _ h ↦ keeps_put target h
  | copyHeader place target =>
    apply (keeps_look Visit.keepsOrder_found place).bind
    rintro _ (hblock | _ | _ | _)
    · exact keeps_put target (.block (Block.Orderly.headerOnly hblock))
    · exact .pure trivial
    · exact .pure trivial
    · exact .pure trivial
  | get place field => exact keeps_look (Visit.grows_get field).keepsOrder place
  | set place assignment => exact keeps_reach (Visit.keepsOrder_set assignment) place
  | touch place =>
    exact (keeps_reach Visit.keepsOrder_found place).discard.bind fun _ _ ↦ .pure trivial
  | headerEdit place => exact keeps_reach Visit.keepsOrder_headerEdit place
  | report place => exact keeps_look Visit.grows_report.keepsOrder place
  | length place =>
    exact (keeps_look Visit.grows_length.weaken.keepsOrder place).answer fun _ _ ↦ trivial
  | ensureParsed place =>
    exact (keeps_look Visit.grows_ensureParsed.keepsOrder place).bind fun _ _ ↦ .pure trivial
  | bytes place =>
    exact (keeps_look Visit.grows_bytes.weaken.keepsOrder place).answer fun _ _ ↦ trivial
  | bytesAfter place front =>
    exact (keeps_look Visit.grows_bytes.weaken.keepsOrder place).answer fun _ _ ↦ trivial
  | invalidate place =>
    exact (keeps_reach Visit.keepsOrder_invalidate place).bind fun _ _ ↦ .pure trivial
  | serialize place =>
    exact (keeps_reach Visit.keepsOrder_serialize place).answer fun _ _ ↦ trivial
  | add place child =>
    exact (keeps_look Visit.keepsOrder_found child).bind fun _ h ↦
      keeps_reach (Visit.keepsOrder_add h) place
  | remove place children index target =>
    apply (keeps_reach (Visit.keepsOrder_remove children index) place).bind
    rintro (_ | item) hitem
    · exact .pure trivial
    · exact keeps_put target (hitem item rfl)
  | clear place children => exact keeps_reach (Visit.keepsOrder_clear children) place
  | equal left right =>
    exact (keeps_look Visit.keepsOrder_found left).bind fun a _ ↦
      (keeps_look Visit.keepsOrder_found right).bind fun b _ ↦
        (keeps_look (Visit.grows_against b).keepsOrder left).bind fun _ _ ↦
          (keeps_look (Visit.grows_against a).keepsOrder right).discard.bind fun _ _ ↦
            .pure trivial
  | assign place child =>
    exact (keeps_look Visit.keepsOrder_found child).bind fun _ h ↦
      keeps_reach (Visit.keepsOrder_put h) place
  | ownership place wallet => exact keeps_look (Visit.grows_ownership wallet).keepsOrder place

/-- By induction on the operations, a run keeps a workbench in order. -/
theorem Orderly.run (h : bench.Orderly) (operations : List Operation) :
    (run perform operations bench).2.Orderly := by
  induction operations generalizing bench with
  | nil => exact h
  | cons operation operations ih =>
    have hkept := keeps_perform operation bench h
    unfold Workbench.run
    cases hrun : perform operation bench with
    | ok answer bench' =>
      rw [hrun] at hkept
      exact ih hkept.1
    | error refusal bench' =>
      rw [hrun] at hkept
      exact ih hkept

end Workbench

/-! ## Messages -/

namespace Message

/-- Every block and transaction in the message is in order. -/
def Orderly (message : Message) : Prop :=
  ∀ item ∈ message.items, item.Orderly

end Message

theorem Read.Yields.throw {P : α → Prop} (e : CodecError) : (throw e : Read α).Yields P := by
  rintro reader a after ⟨⟩

theorem Block.yields_readEmpty (config : ParseConfig) :
    (readEmpty config).Yields Block.Orderly := by
  unfold readEmpty
  refine (Block.yields_read config).bind ?_
  intro block hblock
  have hkept := Block.transactionCount_grows.keeps block hblock
  cases hcount : Block.transactionCount block with
  | error e block' => exact .throw e
  | ok count block' =>
    rw [hcount] at hkept
    dsimp only
    split_ifs
    · exact .pure hkept.1
    · exact .throw _

namespace Message

theorem orderly_of_items_eq_nil {message : Message} (h : message.items = []) : message.Orderly := by
  rw [Orderly, h]
  exact List.forall_mem_nil _

theorem orderly_headers {blocks : List Block} (h : Ordered.Orderly blocks) :
    (Message.headers blocks).Orderly := by
  intro item hitem
  obtain ⟨block, hblock, rfl⟩ := List.mem_map.1 hitem
  exact .block (h block hblock)

theorem orderly_block {whole : Block} (h : Ordered.Orderly whole) : (Message.block whole).Orderly :=
  List.forall_mem_singleton.2 (.block h)

theorem orderly_tx {transaction : Transaction} (h : Ordered.Orderly transaction) :
    (Message.tx transaction).Orderly :=
  List.forall_mem_singleton.2 (.transaction h)

/-- What is read and put into a message that has no items. -/
theorem yields_bare {read : Read α} (make : α → Message) (h : ∀ a, (make a).items = []) :
    Read.Yields (do return make (← read)) Orderly :=
  (Read.Yields.any read).bind fun a _ ↦ .pure (orderly_of_items_eq_nil (h a))

/-- Whatever the parsers make of a payload is in order. -/
theorem yields_of_mem (config : ParseConfig) :
    ∀ entry ∈ reads, (entry.2 config).Yields Orderly := by
  simp only [reads, List.forall_mem_cons]
  have hempty (message : Message) (h : message.items = []) :
      Read.Yields (return message) Orderly := .pure (orderly_of_items_eq_nil h)
  refine ⟨yields_bare .version fun _ ↦ rfl, hempty .verack rfl, ?addr,
    yields_bare .inv fun _ ↦ rfl, yields_bare .getData fun _ ↦ rfl,
    yields_bare .notFound fun _ ↦ rfl, yields_bare .getBlocks fun _ ↦ rfl,
    yields_bare .getHeaders fun _ ↦ rfl, ?headers, ?block, ?tx, ?ping,
    yields_bare .pong fun _ ↦ rfl, hempty .getAddr rfl, hempty .memPool rfl,
    List.forall_mem_nil _⟩
  case addr => exact (Read.Yields.any _).bind fun _ _ ↦ yields_bare .addr fun _ ↦ rfl
  case headers =>
    exact (Read.Yields.any _).bind fun count _ ↦
      ((Block.yields_readEmpty config).times count).bind fun _ hblocks ↦
        .pure (orderly_headers hblocks)
  case block => exact (Block.yields_read config).bind fun _ hblock ↦ .pure (orderly_block hblock)
  case tx =>
    exact (Node.yields_read config).bind fun _ htransaction ↦
      .pure (orderly_tx htransaction.orderly.1)
  case ping =>
    refine (Read.Yields.any _).bind fun reader _ ↦ ?_
    split_ifs
    · exact hempty (.ping none) rfl
    · exact yields_bare (fun nonce ↦ .ping (some nonce)) fun _ ↦ rfl

namespace Orderly

variable {blocks : List Block} {whole : Block} {transaction : Transaction}

theorem headers (h : (Message.headers blocks).Orderly) : Ordered.Orderly blocks := by
  intro block hblock
  obtain hitem | _ | _ | _ := h (.block block) (List.mem_map_of_mem hblock)
  exact hitem

theorem block (h : (Message.block whole).Orderly) : Ordered.Orderly whole := by
  obtain hitem | _ | _ | _ := h (.block whole) List.mem_cons_self
  exact hitem

theorem tx (h : (Message.tx transaction).Orderly) : Ordered.Orderly transaction := by
  obtain _ | hitem | _ | _ := h (.transaction transaction) List.mem_cons_self
  exact hitem

/-- Writing keeps a message in order. -/
theorem payload {message : Message} (h : message.Orderly) :
    (Message.payload.after message).Orderly := by
  cases message with
  | headers blocks =>
    have hblocks : Keeps Ordered.Orderly (Access.each Block.bytes) fun _ ↦ True :=
      Block.bytes_grows.each.weaken.keeps
    have hafter : Message.payload.after (.headers blocks) =
        .headers ((Message.list id <$> Access.each Block.bytes : Access _ _).after blocks) :=
      Access.after_mapState rfl
    rw [hafter, Access.after_map]
    exact orderly_headers (hblocks.after h.headers)
  | block whole =>
    have hafter : Message.payload.after (.block whole) = .block (Block.serialize.after whole) :=
      Access.after_mapState rfl
    rw [hafter]
    exact orderly_block (Block.keeps_serialize.after h.block)
  | tx transaction =>
    have hafter : Message.payload.after (.tx transaction) =
        .tx ((Node.serialize : Access Transaction Bytes).after transaction) :=
      Access.after_mapState rfl
    rw [hafter]
    exact orderly_tx ((Node.keeps_orderly Node.keeps_serialize).after h.tx)
  | _ => exact h

/-- Comparison keeps both messages in order. -/
theorem compare {left right : Message} (h : left.Orderly) (h' : right.Orderly) :
    (Message.compare left right).left.Orderly ∧ (Message.compare left right).right.Orderly := by
  unfold Message.compare
  split
  case h_9 a b =>
    obtain ⟨hleft, hright⟩ := Compared.lists_grows Block.compare_grows a b
    exact ⟨orderly_headers (Ordered.grows hleft h.headers),
      orderly_headers (Ordered.grows hright h'.headers)⟩
  case h_10 a b =>
    obtain ⟨hleft, hright⟩ := Block.compare_grows a b
    exact ⟨orderly_block (Ordered.grows hleft h.block),
      orderly_block (Ordered.grows hright h'.block)⟩
  case h_11 a b =>
    obtain ⟨hleft, hright⟩ := Node.compare_grows a b
    exact ⟨orderly_tx (Ordered.grows hleft h.tx), orderly_tx (Ordered.grows hright h'.tx)⟩
  all_goals exact ⟨h, h'⟩

end Orderly

end Message

/-- Every tree that a program can come to have is in order. -/
theorem Item.Reachable.orderly {item : Item} (h : item.Reachable) : item.Orderly := by
  induction h with
  | run operations _ hslot ih => exact Workbench.Orderly.run ih operations _ hslot
  | @parsed parser payload config message item hparser hmessage hitem =>
    obtain ⟨entry, hentry, rfl⟩ := List.mem_map.1 hparser
    exact (Message.yields_of_mem config entry hentry).answer hmessage item hitem
  | written _ hitem ih => exact Message.Orderly.payload ih _ hitem
  | compared _ _ hitem ihleft ihright =>
    obtain ⟨hleft, hright⟩ := Message.Orderly.compare ihleft ihright
    exact (List.mem_append.1 hitem).elim (hleft _) (hright _)

end CoinWire
