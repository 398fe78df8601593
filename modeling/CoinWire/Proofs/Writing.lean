import Mathlib
import CoinWire.Proofs.Growth.Routes
import CoinWire.Proofs.Orderly.Reachable
import CoinWire.Proofs.Staleness

/-!
# What writing leaves behind

Writing encodes the tree and then, if the tree is to keep its bytes, hands them down. The encoding
lets the tree grow sparingly, and bytes that are handed down change no more than the marks of what
is cached: the same nodes are there, parsed as far as before. A node that has taken its bytes is
cached with all below it, so a second call copies.
-/

namespace CoinWire

open AnyNode Holder Plain

variable {F V σ : Type}

/-! ## Shapes -/

namespace AnyNode

/-- The same nodes are there, and each is parsed in both trees or in neither. -/
def SameShape (node node' : AnyNode) : Prop :=
  ∀ route, (node'.at? route).map isParsed = (node.at? route).map isParsed

variable {node node' : AnyNode} {children children' : Step → Option AnyNode}

theorem map_isParsed_follow (h : ∀ step, Option.Rel SameShape (children step) (children' step))
    (route : List Step) :
    (follow children' route).map isParsed = (follow children route).map isParsed := by
  cases route with
  | nil => rfl
  | cons step route =>
    have hstep := h step
    rw [follow, follow]
    revert hstep
    generalize children step = child, children' step = child'
    rintro (hshape | _)
    · exact hshape route
    · rfl

/-- Nodes that are both parsed or both not, with children of one shape, are of one shape. -/
theorem SameShape.of_children (hparsed : node'.isParsed = node.isParsed)
    (h : ∀ step, Option.Rel SameShape (node.child? step) (node'.child? step)) :
    SameShape node node' := by
  intro route
  cases route with
  | nil => rw [at?, at?, Option.map_some, Option.map_some, hparsed]
  | cons step route => exact map_isParsed_follow h (step :: route)

theorem SameShape.refl (node : AnyNode) : SameShape node node :=
  fun _ ↦ rfl

end AnyNode

/-! ## Bytes that are handed down -/

namespace Node

variable [Layout F]

/-- Bytes that are handed to a list are handed on node by node, a part of them to each. -/
theorem forall₂_adoptEach (raw : Bytes) (nodes : List (Node F)) :
    List.Forall₂ (fun node node' ↦ ∃ part, node' = node.adopt part) nodes
      (adoptEach raw nodes).1 := by
  induction nodes generalizing raw with
  | nil => exact .nil
  | cons node rest ih => exact .cons ⟨_, rfl⟩ (ih _)

/-- Each child in the list keeps its shape if a node of its kind does. -/
theorem rel_adoptEach {wrap : Node F → AnyNode}
    (h : ∀ (node : Node F) (part : Bytes), AnyNode.SameShape (wrap node) (wrap (node.adopt part)))
    (raw : Bytes) (nodes : List (Node F)) (index : Nat) :
    Option.Rel AnyNode.SameShape (nodes[index]?.map wrap)
      ((adoptEach raw nodes).1[index]?.map wrap) := by
  obtain ⟨hnone, hnone'⟩ | ⟨node, _, hnode, hnode', part, rfl⟩ :=
    forall₂_getElem? (forall₂_adoptEach raw nodes) index
  · rw [hnone, hnone']
    exact .none
  · rw [hnode, hnode']
    exact .some (h node part)

end Node

theorem Node.sameShape_adoptIfKept [Layout F] {wrap : Node F → AnyNode}
    (hadopt : ∀ (node : Node F) (raw : Bytes), SameShape (wrap node) (wrap (node.adopt raw)))
    (raw : Bytes) (node : Node F) : SameShape (wrap node) (wrap (node.adoptIfKept raw)) := by
  unfold Node.adoptIfKept
  split_ifs
  · exact hadopt node raw
  · exact .refl _

/-- A node that takes its bytes keeps its shape if its children do. -/
theorem AnyNode.Wraps.sameShape_adopt [Layout F] {wrap : Node F → AnyNode}
    {children : F → Step → Option AnyNode} (h : Wraps wrap children)
    (hchildren : ∀ raw fields step, Option.Rel SameShape (children fields step)
      (children (Layout.adopt raw fields) step)) (node : Node F) (raw : Bytes) :
    SameShape (wrap node) (wrap (node.adopt raw)) := by
  apply SameShape.of_children
  · rw [h.isParsed, h.isParsed, Node.isParsed, Node.isParsed, Node.adopt, Option.isSome_map]
  · intro step
    rw [h.child?, h.child?, Node.adopt]
    cases node.parsed with
    | none => exact .none
    | some fields => exact hchildren raw fields step

theorem Header.sameShape_adopt : ∀ (node : Node Header) (raw : Bytes),
    SameShape (.header node) (.header (node.adopt raw)) :=
  wraps_header.sameShape_adopt fun _ _ _ ↦ .none

theorem TxIn.sameShape_adopt : ∀ (node : Input) (raw : Bytes),
    SameShape (.input node) (.input (node.adopt raw)) :=
  wraps_input.sameShape_adopt fun _ _ _ ↦ .none

theorem TxOut.sameShape_adopt : ∀ (node : Output) (raw : Bytes),
    SameShape (.output node) (.output (node.adopt raw)) :=
  wraps_output.sameShape_adopt fun _ _ _ ↦ .none

/-- To adopt bytes parses nothing in a transaction or below it. -/
theorem TxFields.sameShape_adopt : ∀ (node : Transaction) (raw : Bytes),
    SameShape (.transaction node) (.transaction (node.adopt raw)) := by
  apply wraps_transaction.sameShape_adopt
  intro raw fields step
  cases step with
  | input index => exact Node.rel_adoptEach TxIn.sameShape_adopt _ _ index
  | output index => exact Node.rel_adoptEach TxOut.sameShape_adopt _ _ index
  | header | body | transaction => exact .none

/-- To adopt bytes parses nothing in a body or below it. -/
theorem BodyFields.sameShape_adopt : ∀ (node : Node BodyFields) (raw : Bytes),
    SameShape (.body node) (.body (node.adopt raw)) := by
  apply wraps_body.sameShape_adopt
  intro raw fields step
  cases step with
  | transaction index => exact Node.rel_adoptEach TxFields.sameShape_adopt _ _ index
  | header | body | input | output => exact .none

/-! ## Single nodes -/

/-- What writing has made of a node: the encoding has let the tree grow, and the bytes were taken if
they are to be kept. -/
structure Node.Written [Layout F] [Grown F] (raw : Bytes) (node middle node' : Node F) : Prop where
  grows : Grown.Grows true node middle
  adopts : node' = middle ∨ node' = middle.adopt raw
  kept : node.config.retain = true → node'.cached = true
  left : node.config.retain = false → node' = middle

namespace Node

variable [Layout F] [Plain V] [Holder F V] [LawfulLayout F V] [Grown F] [GrownLayout F]
  {node : Node F} {v : V}

/-- A node writes the encoding of its value, in two steps: the bytes are made, then they are
adopted. -/
theorem Holds.serialize (h : node.Holds v) :
    ∃ middle node', Node.serialize node = .ok (wire v) node' ∧ node'.Holds v ∧
      node.Written (wire v) middle node' := by
  obtain ⟨_, node', hserialize, rfl, hholds⟩ := edits_serialize.exists_ok h
  have hrun := hserialize
  rw [serialize_apply, h.cached?_eq] at hrun
  by_cases hcached : node.cached = true
  · rw [if_pos hcached] at hrun
    injection hrun with _ hnode
    subst hnode
    exact ⟨node, node, hserialize, hholds, Grown.refl true node, .inl rfl, fun _ ↦ hcached,
      fun _ ↦ rfl⟩
  · rw [if_neg hcached] at hrun
    have hcopy : node.cached? = none := by rw [h.cached?_eq, if_neg hcached]
    have hgrows := grows_look (GrownLayout.grows_encode (F := F)) node fun _ ↦ hcopy
    cases hlook : (Node.look Layout.encode : Access (Node F) Bytes) node with
    | error e middle =>
      rw [hlook] at hrun
      contradiction
    | ok raw middle =>
      rw [hlook] at hrun
      rw [Access.after_eq_ok hlook] at hgrows
      injection hrun with hraw hnode
      subst hraw hnode
      have hconfig : middle.config = node.config := Node.Grows.config hgrows
      refine ⟨middle, _, hserialize, hholds, hgrows, ?_, ?_, ?_⟩
      · split_ifs
        · exact .inr rfl
        · exact .inl rfl
      · intro hretain
        rw [if_pos (hconfig ▸ hretain)]
        rfl
      · intro hretain
        rw [if_neg (by simp [hconfig, hretain])]

omit [Plain V] [Holder F V] [LawfulLayout F V] [GrownLayout F] in
theorem Written.sameShape {raw : Bytes} {middle node' : Node F} (h : node.Written raw middle node')
    {wrap : Node F → AnyNode}
    (hadopt : ∀ (node : Node F) (raw : Bytes), SameShape (wrap node) (wrap (node.adopt raw))) :
    SameShape (wrap middle) (wrap node') := by
  obtain rfl | rfl := h.adopts
  · exact .refl _
  · exact hadopt middle raw

end Node

/-! ## Blocks -/

namespace Block

variable {block : Block} {v : PlainBlock}

/-- The bytes that a block hands to its parts. -/
theorem child?_adopt (block : Block) (raw : Bytes) (step : Step) :
    (block.adopt raw).child? step =
      ({ block with
        header := block.header.adoptIfKept (raw.take block.header.length)
        body := block.body.map (Node.adoptIfKept (raw.drop block.header.length)) } :
          Block).child? step := by
  unfold Block.adopt
  dsimp only
  split_ifs <;> rfl

theorem sameShape_adopt (block : Block) (raw : Bytes) (step : Step) :
    Option.Rel SameShape (block.child? step) ((block.adopt raw).child? step) := by
  rw [child?_adopt]
  cases step with
  | header => exact .some (Node.sameShape_adoptIfKept Header.sameShape_adopt _ _)
  | body =>
    unfold Block.child?
    cases block.body with
    | none => exact .none
    | some body => exact .some (Node.sameShape_adoptIfKept BodyFields.sameShape_adopt _ body)
  | transaction | input | output => exact .none

/-- A block that is to keep its bytes holds all of them once they were handed down. -/
theorem raw_adopt {config : ParseConfig} (horderly : block.OrderlyUnder config)
    (hretain : config.retain = true) (raw : Bytes) : (block.adopt raw).raw = some raw := by
  have hadopt {F : Type} [Layout F] {node : Node F} (hconfig : node.config = config)
      (part : Bytes) : (node.adoptIfKept part).isCached = true := by
    unfold Node.adoptIfKept Node.isCached
    rw [hconfig, hretain, Bool.true_and]
    cases hcached : node.cached with
    | true => rwa [Bool.not_true, if_neg Bool.false_ne_true]
    | false => rfl
  unfold Block.adopt
  dsimp only
  rw [if_pos]
  rw [isCached, hadopt horderly.header.2, Bool.true_and, isBodyCached, Option.all_map]
  cases hbody : block.body with
  | none => rfl
  | some body => exact hadopt (horderly.body body hbody).2 _

/-- A block that keeps no bytes hands none down. -/
theorem parts_adopt {config : ParseConfig} (horderly : block.OrderlyUnder config)
    (hretain : config.retain = false) (raw : Bytes) :
    (block.adopt raw).header = block.header ∧ (block.adopt raw).body = block.body := by
  have hadopt {F : Type} [Layout F] {node : Node F} (hconfig : node.config = config)
      (part : Bytes) : node.adoptIfKept part = node := by
    rw [Node.adoptIfKept, hconfig, hretain, Bool.false_and, if_neg Bool.false_ne_true]
  have hbody : block.body.map (Node.adoptIfKept (raw.drop block.header.length)) = block.body := by
    cases hbody : block.body with
    | none => rfl
    | some body => rw [Option.map_some, hadopt (horderly.body body hbody).2]
  unfold Block.adopt
  dsimp only
  rw [hadopt horderly.header.2, hbody]
  split_ifs <;> exact ⟨rfl, rfl⟩

end Block

/-! ## Items -/

namespace Item

/-- The configuration that decides whether the item keeps its bytes. -/
def config : Item → ParseConfig
  | .block whole => whole.header.config
  | .transaction node => node.config
  | .input node => node.config
  | .output node => node.config

/-- The bytes that writing the item copies. -/
def copy? : Item → Option Bytes
  | .block whole => whole.raw
  | .transaction node => node.cached?
  | .input node => node.cached?
  | .output node => node.cached?

/-- The nodes of the item, without the bytes of a whole block. -/
def withoutRaw : Item → Item
  | .block whole => .block { whole with raw := none }
  | item => item

/-- What writing has made of an item: the encoding has let it grow, and the bytes were handed down
if they are to be kept. -/
structure Written (raw : Bytes) (item middle item' : Item) : Prop where
  grows : item.Grows true middle
  sameShape : ∀ route, (item'.at? route).map isParsed = (middle.at? route).map isParsed
  kept : item.config.retain = true → item'.copy? = some raw
  left : item.config.retain = false → item'.withoutRaw = middle.withoutRaw

variable {item item' : Item} {raw : Bytes} {v : PlainItem}

theorem at?_withoutRaw (item : Item) (route : List Step) :
    item.withoutRaw.at? route = item.at? route := by
  cases item with
  | block => cases route <;> rfl
  | transaction | input | output => rfl

theorem isCached_withoutRaw (item : Item) : item.withoutRaw.isCached = item.isCached := by
  cases item <;> rfl

/-- An item whose bytes are all kept answers with them and stays as it is. -/
theorem serialize_of_copy? (h : item.copy? = some raw) :
    Visit.serialize.onItem item = .ok raw item := by
  cases item with
  | block whole =>
    have hraw : whole.raw = some raw := h
    change Access.mapState _ (Block.serialize whole) = _
    rw [Block.serialize_apply, hraw]
    rfl
  | transaction node | input node | output node =>
    have hcached : node.cached? = some raw := h
    change Access.mapState _ (Node.serialize node) = _
    rw [Node.serialize_apply, hcached]
    rfl

end Item

/-- Writing an item that is a node. -/
theorem Node.Holds.serialize_item [Layout F] [Plain V] [Holder F V] [LawfulLayout F V] [Grown F]
    [GrownLayout F] {node : Node F} {v : V} (h : node.Holds v) {whole : Node F → Item}
    {wrap : Node F → AnyNode}
    (hadopt : ∀ (node : Node F) (raw : Bytes), SameShape (wrap node) (wrap (node.adopt raw)))
    (hgrows : ∀ node node', Grown.Grows true node node' → (whole node).Grows true (whole node'))
    (hrun : ∀ node, Visit.serialize.onItem (whole node) = Access.mapState whole node.serialize)
    (hat : ∀ node route, (whole node).at? route = (wrap node).at? route)
    (hconfig : ∀ node, (whole node).config = node.config)
    (hcopy : ∀ node, (whole node).copy? = node.cached?) :
    ∃ middle node', Visit.serialize.onItem (whole node) = .ok (wire v) (whole node') ∧
      node'.Holds v ∧ (whole node).Written (wire v) middle (whole node') := by
  obtain ⟨middle, node', hserialize, hholds, hwritten⟩ := h.serialize
  refine ⟨whole middle, node', ?_, hholds, hgrows _ _ hwritten.grows, ?_, ?_, ?_⟩
  · rw [hrun, hserialize]
    rfl
  · intro route
    rw [hat, hat]
    exact hwritten.sameShape hadopt route
  · intro hretain
    rw [hcopy, hholds.cached?_eq, if_pos (hwritten.kept (hconfig node ▸ hretain))]
  · intro hretain
    rw [hwritten.left (hconfig node ▸ hretain)]

/-- A block writes the encoding of its value, in the same two steps as a node. -/
theorem Block.Holds.serialize {block : Block} {v : PlainBlock} (h : block.Holds v)
    (horderly : block.Orderly) :
    ∃ middle block', Visit.serialize.onItem (.block block) = .ok v.wire (.block block') ∧
      block'.Holds v ∧ Item.Written v.wire (.block block) middle (.block block') := by
  obtain ⟨_, block', hserialize, rfl, hholds⟩ := Block.edits_serialize.exists_ok h
  have hrun : Visit.serialize.onItem (.block block) = .ok v.wire (.block block') := by
    change Access.mapState _ (Block.serialize block) = _
    rw [hserialize]
    rfl
  rw [serialize_apply] at hserialize
  cases hraw : block.raw with
  | some raw =>
    rw [hraw] at hserialize
    injection hserialize with hwire hblock
    subst hwire hblock
    exact ⟨_, _, hrun, hholds, .block (Grown.refl true block), fun _ ↦ rfl, fun _ ↦ hraw,
      fun _ ↦ rfl⟩
  | none =>
    have hgrows := Block.encode_grows block
    rw [hraw] at hserialize
    cases hencode : Block.encode block with
    | error e middle =>
      rw [hencode] at hserialize
      contradiction
    | ok raw middle =>
      rw [hencode] at hserialize
      rw [Access.after_eq_ok hencode] at hgrows
      injection hserialize with hwire hblock
      subst hwire hblock
      have hconfig : middle.header.config = block.header.config := hgrows.header.config
      have hunder : middle.OrderlyUnder block.header.config :=
        hconfig ▸ Ordered.grows (Grown.weaken hgrows) horderly
      refine ⟨.block middle, _, hrun, hholds, .block hgrows, ?_, ?_, ?_⟩
      · exact map_isParsed_follow (sameShape_adopt middle _)
      · exact fun hretain ↦ raw_adopt hunder hretain _
      · intro hretain
        obtain ⟨hheader, hbody⟩ := parts_adopt hunder hretain v.wire
        rw [Item.withoutRaw, Item.withoutRaw, hheader, hbody]

/-- Writing an item in order. -/
theorem Item.Holds.serialize {item : Item} {v : PlainItem} (h : item.Holds v)
    (horderly : item.Orderly) :
    ∃ middle item', Visit.serialize.onItem item = .ok v.wire item' ∧ item'.Holds v ∧
      item.Written v.wire middle item' := by
  cases h with
  | block h =>
    cases horderly with
    | block horderly =>
      obtain ⟨middle, block', hrun, hholds, hwritten⟩ := Block.Holds.serialize h horderly
      exact ⟨middle, _, hrun, .block hholds, hwritten⟩
  | transaction h =>
    obtain ⟨middle, node', hrun, hholds, hwritten⟩ := Node.Holds.serialize_item h
      TxFields.sameShape_adopt (fun _ _ ↦ .transaction) (fun _ ↦ rfl) (fun _ _ ↦ rfl)
      (fun _ ↦ rfl) fun _ ↦ rfl
    exact ⟨middle, _, hrun, .transaction hholds, hwritten⟩
  | input h =>
    obtain ⟨middle, node', hrun, hholds, hwritten⟩ := Node.Holds.serialize_item h
      TxIn.sameShape_adopt (fun _ _ ↦ .input) (fun _ ↦ rfl) (fun _ _ ↦ rfl)
      (fun _ ↦ rfl) fun _ ↦ rfl
    exact ⟨middle, _, hrun, .input hholds, hwritten⟩
  | output h =>
    obtain ⟨middle, node', hrun, hholds, hwritten⟩ := Node.Holds.serialize_item h
      TxOut.sameShape_adopt (fun _ _ ↦ .output) (fun _ ↦ rfl) (fun _ _ ↦ rfl)
      (fun _ ↦ rfl) fun _ ↦ rfl
    exact ⟨middle, _, hrun, .output hholds, hwritten⟩

namespace Item

variable {item item' middle : Item} {raw : Bytes} {v : PlainItem}

/-- All below a cached node is cached. -/
theorem Holds.cached_below (h : item.Holds v) {front rest : List Step} {found node : AnyNode}
    (hfound : item.at? front = some found) (hcached : found.cached = true)
    (hnode : item.at? (front ++ rest) = some node) : node.cached = true := by
  obtain ⟨encoding, hencodes⟩ := h.exists_encodes hfound
  rw [at?_append hfound] at hnode
  exact (hencodes.at? hnode).2 hcached

/-- Where the whole is copied, every part of it is cached. -/
theorem Holds.cached_of_copy? (h : item.Holds v) (hcopy : item.copy? = some raw) :
    item.isCached = true ∧ ∀ route node, item.at? route = some node → node.cached = true := by
  have hmark {F : Type} {node : Node F} (hcopy : node.cached? = some raw) : node.cached = true := by
    unfold Node.cached? at hcopy
    split_ifs at hcopy with hcached
    exact hcached
  have hbelow := h
  cases h with
  | @block block v h =>
    obtain ⟨-, hheader, hbody⟩ := h.raw raw hcopy
    refine ⟨?_, ?_⟩
    · change (block.header.isCached && block.body.all Node.isCached) = true
      rw [Bool.and_eq_true, Option.all_eq_true]
      exact ⟨hheader, hbody⟩
    · intro route node hnode
      cases route with
      | nil => contradiction
      | cons step route =>
        obtain ⟨part, hpart, -⟩ := Option.bind_eq_some_iff.1 hnode
        have hcached : part.cached = true := by
          cases step with
          | header =>
            injection hpart with hpart
            rw [← hpart]
            exact hheader
          | body =>
            obtain ⟨body, hsome, rfl⟩ := Option.map_eq_some_iff.1 hpart
            exact hbody body hsome
          | transaction | input | output => contradiction
        have hfound : (Item.block block).at? [step] = some part := by
          rw [Item.at?, follow, hpart]
          rfl
        exact hbelow.cached_below hfound hcached hnode
  | transaction | input | output =>
    have hcached := hmark hcopy
    exact ⟨hcached, fun route node hnode ↦
      @Holds.cached_below _ _ hbelow [] route _ node rfl hcached hnode⟩

/-- Writing parses nothing below a cached node. -/
theorem Written.spares (h : item.Written raw middle item') (hholds : item.Holds v) :
    item.Spares item' := by
  intro route node hnode hcached rest
  rw [h.sameShape, h.grows.spares hholds route node hnode hcached]

/-- Where no bytes are kept, every mark of what is cached stays. -/
theorem Written.cached (h : item.Written raw middle item') (hretain : item.config.retain = false) :
    item'.isCached = item.isCached ∧
      ∀ route node, item.at? route = some node → ∃ node', item'.at? route = some node' ∧
        node'.cached = node.cached := by
  have hleft := h.left hretain
  refine ⟨?_, ?_⟩
  · rw [← isCached_withoutRaw, hleft, isCached_withoutRaw, h.grows.isCached]
  · intro route node hnode
    obtain ⟨node', hnode', hgrows⟩ := h.grows.at? hnode
    refine ⟨node', ?_, hgrows.cached⟩
    rw [← at?_withoutRaw, hleft, at?_withoutRaw, hnode']

/-- Every item has a report. -/
theorem Holds.exists_report (h : item.Holds v) :
    ∃ report, ∀ other : Item, other.Holds v → Visit.report.onItem.answer other = .ok report := by
  have hreport : ∃ report, Inquiry.report.onItem v = .ok report := by
    cases v <;> exact ⟨_, rfl⟩
  obtain ⟨report, hreport⟩ := hreport
  exact ⟨report, fun _ hother ↦ Visit.asks_report.answer_onItem hother hreport⟩

end Item

/-- What writing an item leaves behind. The value stays, and what was cached and not parsed is not
parsed. If the item is to keep its bytes, all of it is cached, and writing it again changes nothing;
if not, no mark of what is cached has changed. -/
theorem Item.Reachable.serialized {item : Item} (hitem : item.Reachable) :
    ∃ raw item' report, Visit.serialize.onItem item = .ok raw item' ∧
      Visit.bytes.onItem.answer item = .ok raw ∧
      Visit.report.onItem.answer item = .ok report ∧
      Visit.report.onItem.answer item' = .ok report ∧
      (∀ route node, item.at? route = some node → node.cached = true → node.isParsed = false →
        ∃ node', item'.at? route = some node' ∧ node'.isParsed = false) ∧
      (item.config.retain = true →
        item'.isCached = true ∧
          (∀ route node, item'.at? route = some node → node.cached = true) ∧
          Visit.serialize.onItem item' = .ok raw item') ∧
      (item.config.retain = false →
        item'.isCached = item.isCached ∧
          (∀ route node, item.at? route = some node → ∃ node', item'.at? route = some node' ∧
            node'.cached = node.cached) ∧
          ∃ item'', Visit.serialize.onItem item' = .ok raw item'') := by
  obtain ⟨v, hv⟩ := hitem.holds
  obtain ⟨middle, item', hrun, hholds, hwritten⟩ := hv.serialize hitem.orderly
  obtain ⟨report, hreport⟩ := hv.exists_report
  refine ⟨v.wire, item', report, hrun, Visit.answer_bytes_onItem hv, hreport item hv,
    hreport item' hholds, ?_, ?_, ?_⟩
  · intro route node hnode hcached hparsed
    have hsame := hwritten.spares hv route node hnode hcached []
    rw [List.append_nil, hnode, Option.map_some, hparsed] at hsame
    exact Option.map_eq_some_iff.1 hsame
  · intro hretain
    have hcopy := hwritten.kept hretain
    obtain ⟨hroot, hbelow⟩ := hholds.cached_of_copy? hcopy
    exact ⟨hroot, hbelow, Item.serialize_of_copy? hcopy⟩
  · intro hretain
    obtain ⟨hroot, hbelow⟩ := hwritten.cached hretain
    have horderly := Visit.keepsOrder_serialize.onItem item hitem.orderly
    rw [hrun] at horderly
    obtain ⟨-, item'', hagain, -, -⟩ := hholds.serialize horderly.1
    exact ⟨hroot, hbelow, item'', hagain⟩

/-- The lock time of a transaction that keeps its bytes was set. Writing makes all of it cached
again and does not parse its output. -/
theorem Item.Reachable.serialized_after_edit :
    let part : Bytes := [5, 0, 0, 0, 0, 0, 0, 0, 0]
    let encoding : Bytes := [1, 0, 0, 0, 7, 0, 0, 0, 0, 1] ++ part ++ [9, 0, 0, 0]
    let edited := Item.transaction ⟨none, false, .deferredRetain,
      some ⟨1, 7, [], [⟨some part, true, .deferredRetain, none, none⟩], 9⟩, none⟩
    edited.Reachable ∧ edited.isCached = false ∧
      ∃ item', Visit.serialize.onItem edited = .ok encoding item' ∧ item'.isCached = true ∧
        Visit.serialize.onItem item' = .ok encoding item' ∧
        ∃ node, item'.at? [.output 0] = some node ∧ node.cached = true ∧ node.isParsed = false := by
  intro part encoding edited
  obtain ⟨operations, hslots⟩ : ∃ operations,
      (Workbench.run Workbench.perform operations Workbench.empty).2.slots = [("a", edited)] :=
    ⟨[.make "a" (.transaction ([1, 0, 0, 0, 7, 0, 0, 0, 0, 1] ++ part ++ [0, 0, 0, 0])
      .deferredRetain), .set ⟨"a", none, none, none⟩ (.lockTime 9)], by cbv⟩
  have hslot : ("a", edited) ∈
      (Workbench.run Workbench.perform operations Workbench.empty).2.slots := by
    rw [hslots]
    exact List.mem_cons_self
  have hreachable : edited.Reachable := .run operations (List.forall_mem_nil _) hslot
  have hbytes : Visit.bytes.onItem.answer edited = .ok encoding := by cbv
  obtain ⟨raw, item', -, hrun, hanswer, -, -, hunparsed, hkept, -⟩ := hreachable.serialized
  obtain rfl : encoding = raw := Except.ok.inj (hbytes.symm.trans hanswer)
  obtain ⟨hroot, hbelow, hagain⟩ := hkept rfl
  obtain ⟨node, hnode, hparsed⟩ := hunparsed [.output 0] _ rfl rfl rfl
  exact ⟨hreachable, rfl, item', hrun, hroot, hagain, node, hnode, hbelow _ _ hnode, hparsed⟩

end CoinWire
