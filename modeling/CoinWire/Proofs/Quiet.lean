import Mathlib
import CoinWire.Proofs.Accessors
import CoinWire.Proofs.Places
import CoinWire.Proofs.Writing

/-!
# What reads leave as it is

What is asked through a shared reference parses nodes and remembers hashes, and that is all: no
bytes, no mark of what is cached and no value change. How much is parsed depends on what is asked. A
field or a list of children parses the node it belongs to, and the children that come out of it are
not parsed, since a node that waits was read lazily. A length parses nothing. Encodings and hashes
parse what cannot be copied.
-/

namespace CoinWire

open AnyNode Holder

variable {F V σ α β : Type}

/-! ## Shared references -/

/-- Compares two items, both of which may be parsed for it. Items of different kinds are not
equal. -/
def Item.compare : Item → Item → Compared Item
  | .block left, .block right =>
    let compared := Block.compare left right
    ⟨compared.equal, .block compared.left, .block compared.right⟩
  | .transaction left, .transaction right =>
    let compared := Node.compare left right
    ⟨compared.equal, .transaction compared.left, .transaction compared.right⟩
  | .input left, .input right =>
    let compared := Node.compare left right
    ⟨compared.equal, .input compared.left, .input compared.right⟩
  | .output left, .output right =>
    let compared := Node.compare left right
    ⟨compared.equal, .output compared.left, .output compared.right⟩
  | left, right => ⟨false, left, right⟩

/-- The visits for which a shared reference is enough. -/
inductive Visit.Shared : {α : Type} → Visit α → Prop where
  | found : Shared found
  | length : Shared length
  | ensureParsed : Shared ensureParsed
  | bytes : Shared bytes
  | report : Shared report
  | get (field : Field) : Shared (get field)
  | list (children : Children) : Shared (list children)
  | against {other : Item} (h : other.Reachable) : Shared (against other)
  | ownership (wallet : Script.Wallet) : Shared (ownership wallet)

/-- Nothing of the first item is gone or changed in the second, which may be parsed further. -/
structure Item.Intact (item item' : Item) : Prop where
  nodes : ∀ route node, item.at? route = some node → ∃ node', item'.at? route = some node' ∧
    node'.raw = node.raw ∧ node'.cached = node.cached ∧
      (node.isParsed = true → node'.isParsed = true)
  block : ∀ whole, item = .block whole → ∃ whole', item' = .block whole' ∧ whole'.raw = whole.raw
  /-- The value is the same. -/
  report : ∃ report, Visit.report.onItem.answer item = .ok report ∧
    Visit.report.onItem.answer item' = .ok report

namespace Visit

theorem grows_list (children : Children) : (list children).Grows false := by
  have hmap {σ τ : Type} [Grown σ] (wrap : τ → Item) {access : Access σ (List τ)}
      (h : access.Grows false) :
      (do return (← access).map wrap : Access σ (List Item)).Grows false :=
    h.answer (List.map wrap)
  cases children with
  | transactions => exact ⟨hmap _ (Block.lookTransactions_grows .get), .pure _, .pure _, .pure _⟩
  | inputs =>
    exact ⟨.pure _, hmap _ (Node.look_grows (TxFields.onInputs_grows .get)), .pure _, .pure _⟩
  | outputs =>
    exact ⟨.pure _, hmap _ (Node.look_grows (TxFields.onOutputs_grows .get)), .pure _, .pure _⟩

/-- Every visit by shared reference adds to a tree only what its bytes say. -/
theorem Shared.grows {visit : Visit α} (h : visit.Shared) : visit.Grows false := by
  cases h with
  | found => exact grows_found.weaken
  | length => exact grows_length.weaken
  | ensureParsed => exact grows_ensureParsed
  | bytes => exact grows_bytes.weaken
  | report => exact grows_report
  | get field => exact grows_get field
  | list children => exact grows_list children
  | against => exact grows_against _
  | ownership wallet => exact grows_ownership wallet

/-- Some question to the value is answered by a look at the list. -/
theorem asks_list (children : Children) :
    ∃ inquiry : Inquiry Unit, (list children).Asks (fun _ _ ↦ True) inquiry := by
  have hnone {σ V : Type} [Holder σ V] : Looks (return [] : Access σ (List Item))
      (fun _ _ ↦ True) fun _ ↦ .ok () := .pure trivial
  have hmap {σ τ V W : Type} [Holder σ V] [Holder τ W] (wrap : τ → Item)
      {access : Access σ (List τ)} {question : Question V (List W)}
      (h : Looks access Holds question) :
      Looks (do return (← access).map wrap : Access σ (List Item)) (fun _ _ ↦ True)
        fun v ↦ do return (fun _ ↦ ()) (← question v) :=
    h.answer fun _ _ _ ↦ trivial
  cases children with
  | transactions =>
    exact ⟨⟨_, _, _, _⟩, hmap _ (Block.looks_lookTransactions Looks.get), hnone, hnone, hnone⟩
  | inputs =>
    exact ⟨⟨_, _, _, _⟩, hnone, hmap _ (Node.looks_look (TxFields.looks_onInputs Looks.get)), hnone,
      hnone⟩
  | outputs =>
    exact ⟨⟨_, _, _, _⟩, hnone, hmap _ (Node.looks_look (TxFields.looks_onOutputs Looks.get)),
      hnone, hnone⟩

theorem Shared.asks {visit : Visit α} (h : visit.Shared) :
    ∃ (β : Type) (R : α → β → Prop) (inquiry : Inquiry β), visit.Asks R inquiry := by
  cases h with
  | found => exact ⟨_, _, _, asks_found⟩
  | length => exact ⟨_, _, _, asks_length⟩
  | ensureParsed => exact ⟨_, _, _, asks_ensureParsed⟩
  | bytes => exact ⟨_, _, _, asks_bytes⟩
  | report => exact ⟨_, _, _, asks_report⟩
  | get field => exact ⟨_, _, _, asks_get field⟩
  | list children =>
    obtain ⟨inquiry, hinquiry⟩ := asks_list children
    exact ⟨_, _, inquiry, hinquiry⟩
  | against h =>
    obtain ⟨w, hw⟩ := h.holds
    exact ⟨_, _, _, asks_against hw⟩
  | ownership wallet => exact ⟨_, _, _, asks_ownership wallet⟩

/-- A look at a place leaves an item that holds the same value. -/
theorem Asks.holds_after_look? {visit : Visit α} {R : α → β → Prop} {inquiry : Inquiry β}
    (h : visit.Asks R inquiry) {item : Item} {v : PlainItem} (hitem : item.Holds v)
    (place : Place) : ((visit.look? place).after item).Holds v := by
  obtain ⟨a, item', b, w, ha, hb, -, hholds⟩ | ⟨e, item', he, -, hholds⟩ :=
    h.look? place item v hitem
  · rw [Access.after_eq_ok ha]
    unfold Change.ask at hb
    cases hanswer : inquiry.look? place v with
    | error e =>
      rw [hanswer] at hb
      contradiction
    | ok found =>
      rw [hanswer] at hb
      obtain ⟨-, rfl⟩ := Prod.mk.inj (Except.ok.inj hb)
      exact hholds
  · rwa [Access.after_eq_error he]

end Visit

/-- What grows and holds the same value as before is intact. -/
theorem Item.Grows.intact {item item' : Item} {v : PlainItem} (h : item.Grows false item')
    (hitem : item.Holds v) (hitem' : item'.Holds v) : item.Intact item' := by
  refine ⟨?_, ?_, ?_⟩
  · intro route node hnode
    obtain ⟨node', hnode', hgrows⟩ := h.at? hnode
    exact ⟨node', hnode', hgrows.raw, hgrows.cached, hgrows.isParsed⟩
  · rintro whole rfl
    cases h with
    | block h => exact ⟨_, rfl, h.raw⟩
  · obtain ⟨report, hreport⟩ := hitem.exists_report
    exact ⟨report, hreport _ hitem, hreport _ hitem'⟩

/-- After a visit by shared reference every node that was there is there, with the bytes it had. -/
theorem Visit.Shared.intact {visit : Visit α} (h : visit.Shared) {item : Item} {v : PlainItem}
    (hitem : item.Holds v) (place : Place) : item.Intact ((visit.look? place).after item) := by
  obtain ⟨β, R, inquiry, hasks⟩ := h.asks
  exact (h.grows.look? place item).intact hitem (hasks.holds_after_look? hitem place)

/-- A comparison of states leaves both intact. -/
theorem Compares.intact [Grown σ] [Holder σ V] {compared : Compared σ} {left right : σ} {v w : V}
    (h : Compares compared left right v w)
    (hgrows : Grown.Grows false left compared.left ∧ Grown.Grows false right compared.right)
    (hv : Holds left v) (hw : Holds right w) {wrap : σ → Item} {wrapPlain : V → PlainItem}
    (hwrap : ∀ {s s'}, Grown.Grows false s s' → (wrap s).Grows false (wrap s'))
    (hholds : ∀ {s v}, Holds s v → (wrap s).Holds (wrapPlain v)) :
    (wrap left).Intact (wrap compared.left) ∧ (wrap right).Intact (wrap compared.right) :=
  ⟨(hwrap hgrows.1).intact (hholds hv) (hholds h.left.1),
    (hwrap hgrows.2).intact (hholds hw) (hholds h.right.1)⟩

/-- A comparison leaves both sides intact. -/
theorem Item.Holds.compare_intact {left right : Item} {v w : PlainItem} (hleft : left.Holds v)
    (hright : right.Holds w) :
    left.Intact (Item.compare left right).left ∧ right.Intact (Item.compare left right).right := by
  unfold Item.compare
  split
  · obtain hv | _ | _ | _ := hleft
    obtain hw | _ | _ | _ := hright
    exact (Block.compares hv hw).intact (Block.compare_grows _ _) hv hw .block .block
  · obtain _ | hv | _ | _ := hleft
    obtain _ | hw | _ | _ := hright
    exact (Node.compares hv hw).intact (Node.compare_grows _ _) hv hw .transaction .transaction
  · obtain _ | _ | hv | _ := hleft
    obtain _ | _ | hw | _ := hright
    exact (Node.compares hv hw).intact (Node.compare_grows _ _) hv hw .input .input
  · obtain _ | _ | _ | hv := hleft
    obtain _ | _ | _ | hw := hright
    exact (Node.compares hv hw).intact (Node.compare_grows _ _) hv hw .output .output
  · exact ⟨(Item.Grows.refl false left).intact hleft hleft,
      (Item.Grows.refl false right).intact hright hright⟩

/-! ## Lengths -/

namespace Visit

/-- Both visits leave every value alike, whatever they answer. -/
structure LeavesAs (visit : Visit α) (visit' : Visit β) : Prop where
  block : ∀ s, visit.block.after s = visit'.block.after s
  transaction : ∀ s, visit.transaction.after s = visit'.transaction.after s
  input : ∀ s, visit.input.after s = visit'.input.after s
  output : ∀ s, visit.output.after s = visit'.output.after s

theorem after_look_congr [Layout F] {access : Access F α} {access' : Access F β}
    (h : ∀ fields, access.after fields = access'.after fields) (node : Node F) :
    (Node.look access).after node = (Node.look access').after node := by
  rw [Node.after_look, Node.after_look]
  cases Node.fields node with
  | error e node' => rfl
  | ok fields node' => exact congrArg node'.putFields (h fields)

/-- Two looks at one place in a list of the fields. -/
theorem after_look_at?_congr [Layout F] (get : F → List σ) (set : List σ → F → F) (index : Nat)
    {access : Access σ α} {access' : Access σ β} (h : ∀ s, access.after s = access'.after s)
    (node : Node F) :
    (Node.look (Access.focus get set (Access.at? index access))).after node =
      (Node.look (Access.focus get set (Access.at? index access'))).after node := by
  apply after_look_congr
  intro fields
  rw [Access.after_focus, Access.after_focus, Access.after_at?, Access.after_at?]
  cases (get fields)[index]? with
  | none => rfl
  | some s =>
    dsimp only
    rw [h]

variable {visit : Visit α} {visit' : Visit β}

theorem LeavesAs.lookTransaction? (h : visit.LeavesAs visit') (place : Place)
    (transaction : Transaction) :
    (visit.lookTransaction? place).after transaction =
      (visit'.lookTransaction? place).after transaction := by
  unfold Visit.lookTransaction?
  cases place.input with
  | some index => exact after_look_at?_congr _ _ index h.input transaction
  | none =>
    cases place.output with
    | some index => exact after_look_at?_congr _ _ index h.output transaction
    | none =>
      dsimp only
      rw [Access.after_map, Access.after_map, h.transaction]

theorem LeavesAs.lookBlock? (h : visit.LeavesAs visit') (place : Place) (block : Block) :
    (visit.lookBlock? place).after block = (visit'.lookBlock? place).after block := by
  unfold Visit.lookBlock?
  cases place.transaction with
  | some index =>
    dsimp only
    rw [Access.after_answer, Access.after_answer]
    unfold Block.lookTransaction? Block.lookTransactions
    rw [Block.after_onBody, Block.after_onBody]
    cases block.body with
    | none => rfl
    | some body =>
      have hbody := after_look_at?_congr BodyFields.transactions
        (fun transactions fields ↦ { fields with transactions }) index
        (h.lookTransaction? place) body
      exact congrArg (fun body' ↦ { block with body := some body' }) hbody
  | none =>
    dsimp only
    rw [Access.after_map, Access.after_map, h.block]

/-- Visits that leave every item alike leave every tree alike, at any place. -/
theorem LeavesAs.look? (h : visit.LeavesAs visit') (place : Place) (item : Item) :
    (visit.look? place).after item = (visit'.look? place).after item := by
  rw [after_look?, after_look?]
  cases item with
  | block value => exact congrArg Item.block (h.lookBlock? place value)
  | transaction value => exact congrArg Item.transaction (h.lookTransaction? place value)
  | input value => exact congrArg Item.input (h.input value)
  | output value => exact congrArg Item.output (h.output value)

/-- A length is found without any change, as the value itself is. -/
theorem length_leavesAs_found : length.LeavesAs found :=
  ⟨fun _ ↦ rfl, fun _ ↦ rfl, fun _ ↦ rfl, fun _ ↦ rfl⟩

end Visit

/-! ## Places -/

namespace Item

variable {item item' child child' : Item} {front route : List Step} {v : PlainItem}

theorem Swaps.parsesOnly (h : Item.Swaps front child child' item item')
    (hchild : child.ParsesOnly route child') : item.ParsesOnly (front ++ route) item' :=
  AnyNode.ParsesOnly.append front hchild h.before h.after h.outside

/-- What is spared in the value at a place is spared in the item. -/
theorem Swaps.spares (h : Item.Swaps front child child' item item') (hitem : item.Holds v)
    (hchild : child.Spares child') : item.Spares item' := by
  intro route node hnode hcached rest
  by_cases hfront : front <+: route ++ rest
  · obtain ⟨below, hbelow⟩ := hfront
    rw [← hbelow, h.before, h.after]
    obtain ⟨inner, rfl⟩ | ⟨inner, rfl⟩ :=
      List.prefix_or_prefix_of_prefix ⟨below, hbelow⟩ (List.prefix_append route rest)
    · -- The cached node is in the value.
      rw [List.append_assoc, List.append_cancel_left_eq] at hbelow
      rw [h.before] at hnode
      rw [hbelow]
      exact hchild inner node hnode hcached rest
    · -- The cached node is on the way to the value, so all of the value is cached.
      obtain ⟨root, hroot⟩ : ∃ root, child.at? [] = some root := by
        obtain hnil | hroot := h.root
        · obtain ⟨rfl, rfl⟩ := List.append_eq_nil_iff.1 hnil
          exact ⟨node, by rw [← h.before]; exact hnode⟩
        · exact hroot
      have hplace : item.at? (route ++ inner) = some root := by
        rw [← hroot, ← h.before, List.append_nil]
      exact hchild [] root hroot (hitem.cached_below hnode hcached hplace) below
  · exact h.outside _ hfront

variable {place : Place}

/-- What is found at a place in an item in order is in order. -/
theorem Orderly.found (h : item.Orderly)
    (hplace : Visit.found.look? place item = .ok (some child) item') : child.Orderly := by
  have hkept := Visit.keepsOrder_found.look? place item h
  rw [hplace] at hkept
  exact hkept.2 child rfl

theorem Holds.found (h : item.Holds v)
    (hplace : Visit.found.look? place item = .ok (some child) item') : ∃ w, child.Holds w := by
  obtain ⟨a, _, b, _, ha, -, hfound, -⟩ | ⟨e, _, he, -, -⟩ :=
    Visit.asks_found.look? place item v h
  · rw [hplace] at ha
    injection ha with ha
    subst ha
    cases hfound with
    | some hchild => exact ⟨_, hchild⟩
  · rw [hplace] at he
    contradiction

/-- A sparing visit of the value at a place spares the item. -/
theorem Holds.spares_look? (h : item.Holds v) {visit : Visit α} (hvisit : visit.Grows true)
    (hplace : Visit.found.look? place item = .ok (some child) item) :
    item.Spares ((visit.look? place).after item) := by
  obtain ⟨w, hw⟩ := h.found hplace
  exact (Item.swaps_of_look? hplace visit).spares h ((hvisit.onItem child).spares hw)

end Item

/-- Reads have no effect but that more is parsed. A shared reference leaves bytes, marks and value
of the whole tree as they are, at whatever place it is used. At a value at hand, the item itself or
one inside it, an accessor of one field or one list of children parses the node it is called on and
no more, a length changes nothing, and encodings and hashes leave what is cached, and all below it,
parsed as far as it was; so does writing the value. -/
theorem Item.Reachable.reads_quietly {item : Item} (hitem : item.Reachable) :
    (∀ (α : Type) (visit : Visit α), visit.Shared → ∀ place,
      item.Intact ((visit.look? place).after item)) ∧
    (∀ other : Item, other.Reachable → item.Intact (Item.compare item other).left ∧
      other.Intact (Item.compare item other).right) ∧
    (∀ place child, Visit.found.look? place item = .ok (some child) item →
      (∀ field route, field.target? child.kind = some route →
        item.ParsesOnly (place.route item ++ route) (((Visit.get field).look? place).after item)) ∧
      (∀ children : Visit.Children, child.kind = children.owner →
        item.ParsesOnly (place.route item ++ children.lender)
          (((Visit.list children).look? place).after item)) ∧
      (Visit.length.look? place).after item = item ∧
      item.Spares ((Visit.bytes.look? place).after item) ∧
      item.Spares (((Visit.get .hash).look? place).after item) ∧
      child.Spares (Visit.serialize.onItem.after child)) := by
  obtain ⟨v, hv⟩ := hitem.holds
  refine ⟨fun α visit hvisit place ↦ hvisit.intact hv place, ?_, ?_⟩
  · intro other hother
    obtain ⟨w, hw⟩ := hother.holds
    exact hv.compare_intact hw
  · intro place child hplace
    have hchild := hitem.orderly.found hplace
    refine ⟨?_, ?_, ?_, hv.spares_look? Visit.grows_bytes hplace,
      hv.spares_look? Visit.grows_hash hplace, ?_⟩
    · intro field route hroute
      exact (Item.swaps_of_look? hplace _).parsesOnly (hchild.get_parsesOnly hroute)
    · intro children howner
      exact (Item.swaps_of_look? hplace _).parsesOnly (hchild.list_parsesOnly howner)
    · rw [Visit.length_leavesAs_found.look?, Access.after_eq_ok hplace]
    · obtain ⟨w, hw⟩ := hv.found hplace
      obtain ⟨middle, child', hrun, -, hwritten⟩ := hw.serialize hchild
      rw [Access.after_eq_ok hrun]
      exact hwritten.spares hw

/-- The version of a block of which nothing is parsed is asked for. The header is parsed then, and
the body is not; an encoding that can be copied parses neither. -/
theorem Item.Reachable.reads_quietly_version :
    let item := Item.block ⟨⟨some (List.replicate 80 0), true, .deferredRetain, none, none⟩,
      some ⟨some [0, 0], true, .deferredRetain, none, none⟩, some (List.replicate 82 0)⟩
    let place : Place := ⟨"a", none, none, none⟩
    let looked := ((Visit.get .version).look? place).after item
    let copied := (Visit.bytes.look? place).after item
    item.Reachable ∧ item.Intact looked ∧
      (looked.at? [.header]).map isParsed = some true ∧
      (looked.at? [.body]).map isParsed = some false ∧
      (copied.at? [.body]).map isParsed = some false ∧
      (Visit.length.look? place).after item = item := by
  intro item place looked copied
  have hmake : (Source.block (List.replicate 82 0) .deferredRetain).make = .ok item := by cbv
  have hitem : item.Reachable := Item.Reachable.of_make hmake
  obtain ⟨hshared, -, hplaces⟩ := hitem.reads_quietly
  have hplace : Visit.found.look? place item = .ok (some item) item := rfl
  obtain ⟨hfields, -, hlength, hbytes, -⟩ := hplaces place item hplace
  have hparses : item.ParsesOnly [.header] looked := hfields .version [.header] rfl
  refine ⟨hitem, hshared _ _ (.get .version) place, by cbv, ?_, ?_, hlength⟩
  · obtain hsame | ⟨hnone, -⟩ := hparses [.body] (by decide)
    · exact hsame
    · contradiction
  · exact hbytes [.body] _ rfl rfl []

end CoinWire
