import Mathlib
import CoinWire.Proofs.Moving
import CoinWire.Proofs.Orderly.Item
import CoinWire.Proofs.Growth.Routes

/-!
# What an accessor parses

An accessor of one field, or of one list of children, is a look at the fields of one node. It parses
this node and leaves every other node as it was. A node that waits to be parsed was read lazily, so
the children that come out of the parse wait in turn.
-/

namespace CoinWire

open AnyNode

variable {F α β : Type}

/-! ## Parsed nodes -/

/-- Of the nodes that were there only the one at the end of the route may be parsed now that was
not. What is new are children of it that are not parsed. -/
def AnyNode.ParsesOnly (route : List Step) (before after : List Step → Option AnyNode) : Prop :=
  ∀ other ≠ route, (after other).map isParsed = (before other).map isParsed ∨
    before other = none ∧ (after other).map isParsed = some false ∧ ∃ step, other = route ++ [step]

namespace AnyNode

variable {route : List Step} {before after inner inner' : List Step → Option AnyNode}

theorem ParsesOnly.refl (route : List Step) (before : List Step → Option AnyNode) :
    ParsesOnly route before before :=
  fun _ _ ↦ .inl rfl

/-- What is parsed in a part is parsed in the whole, if all beside the part is parsed as before. -/
theorem ParsesOnly.append (front : List Step) (h : ParsesOnly route inner inner')
    (hbefore : ∀ rest, before (front ++ rest) = inner rest)
    (hafter : ∀ rest, after (front ++ rest) = inner' rest)
    (houtside : ∀ other, ¬front <+: other →
      (after other).map isParsed = (before other).map isParsed) :
    ParsesOnly (front ++ route) before after := by
  intro other hother
  by_cases hfront : front <+: other
  · obtain ⟨rest, rfl⟩ := hfront
    have hrest : rest ≠ route := fun hsame ↦ hother (hsame ▸ rfl)
    rw [hbefore, hafter]
    obtain hsame | ⟨hnone, hfalse, step, hstep⟩ := h rest hrest
    · exact .inl hsame
    · exact .inr ⟨hnone, hfalse, step, by rw [hstep, List.append_assoc]⟩
  · exact .inl (houtside other hfront)

theorem child?_eq_none {node : AnyNode} (h : node.isParsed = false) (step : Step) :
    node.child? step = none := by
  have hnone {F : Type} {node : Node F} (h : node.isParsed = false) : node.parsed = none := by
    rwa [Node.isParsed, Option.isSome_eq_false_iff, Option.isNone_iff_eq_none] at h
  cases node with
  | body node | transaction node => rw [child?, hnone h, Option.bind_none]
  | header | input | output => rfl

/-- What comes out of a lazy parse has only children that are not parsed. -/
def DefersChildren [Layout F] (children : F → Step → Option AnyNode) : Prop :=
  ∀ config : ParseConfig, config.lazy = true →
    (Layout.parse config : Read F).Yields fun fields ↦
      ∀ step child, children fields step = some child → child.isParsed = false

/-- A look at the fields of a node in order parses this node, and the children that come out of a
lazy parse are not parsed. -/
theorem Wraps.parsesOnly [Layout F] [Grown F] [Ordered F] {wrap : Node F → AnyNode}
    {children : F → Step → Option AnyNode} (h : Wraps wrap children)
    (hchildren : DefersChildren children)
    {node : Node F} (hnode : node.Orderly) :
    ParsesOnly [] (fun other ↦ (wrap node).at? other)
      fun other ↦ (wrap (Access.after Node.fields node)).at? other := by
  cases hfields : Node.fields node with
  | error e node' =>
    rw [Access.after_eq_error hfields, Node.eq_of_fields_error hfields]
    exact .refl _ _
  | ok fields node' =>
    have hfound := Access.answer_eq_ok hfields
    obtain rfl := Node.eq_putFields_of_fields hfields
    rw [Access.after_eq_ok hfields]
    obtain hparsed | ⟨hparsed, raw, -, hparse⟩ := Node.answer_fields_cases hfound
    · have hself : node.putFields fields = node := by rw [Node.putFields, ← hparsed]
      rw [hself]
      exact .refl _ _
    · have hnone (step : Step) : (wrap node).child? step = none := by
        rw [h.child?, hparsed, Option.bind_none]
      have hstep (step : Step) :
          (wrap (node.putFields fields)).child? step = children fields step := by
        rw [h.child?, Node.putFields, Option.bind_some]
      have hunparsed := (hchildren node.config (hnode.deferred hparsed)).answer hparse
      intro other hother
      cases other with
      | nil => exact absurd rfl hother
      | cons step rest =>
        dsimp only
        rw [at?, at?, hnone, hstep, Option.bind_none]
        cases hchild : children fields step with
        | none => exact .inl rfl
        | some child =>
          have hfalse := hunparsed step child hchild
          rw [Option.bind_some]
          cases rest with
          | nil => exact .inr ⟨rfl, congrArg some hfalse, step, rfl⟩
          | cons next rest =>
            rw [at?, child?_eq_none hfalse]
            exact .inl rfl

end AnyNode

/-! ## Kinds of nodes -/

theorem Node.ReadUnder.isParsed [Grown F] [Ordered F] {config : ParseConfig} {node : Node F}
    (h : node.ReadUnder config) (hlazy : config.lazy = true) : node.isParsed = false := by
  rw [Node.isParsed, h.unparsed hlazy, Option.isSome_none]

theorem TxFields.defersChildren : DefersChildren TxFields.child? := by
  intro config hlazy
  refine (TxFields.yields_parse config).mono ?_
  rintro fields ⟨hinputs, houtputs⟩ step child hchild
  obtain ⟨input, hmem, rfl⟩ | ⟨output, hmem, rfl⟩ := TxFields.mem_of_child? hchild
  · exact (hinputs input hmem).isParsed hlazy
  · exact (houtputs output hmem).isParsed hlazy

theorem BodyFields.defersChildren : DefersChildren BodyFields.child? := by
  intro config hlazy
  refine (BodyFields.yields_parse config).mono ?_
  intro fields htransactions step child hchild
  obtain ⟨transaction, hmem, rfl⟩ := BodyFields.mem_of_child? hchild
  exact (htransactions transaction hmem).isParsed hlazy

/-- Fields without children. -/
theorem AnyNode.defersChildren_none [Layout F] : DefersChildren fun (_ : F) _ ↦ none := by
  intro config _
  refine (Read.Yields.any _).mono ?_
  intro _ _ _ child hchild
  contradiction

namespace Access

variable [Layout F]

/-- All that the access does to a node is to parse it. -/
def Parses (access : Access (Node F) α) : Prop :=
  ∀ node, access.after node = Access.after Node.fields node

theorem Parses.answer {access : Access (Node F) α} (h : access.Parses) (g : α → β) :
    (do return g (← access) : Access (Node F) β).Parses :=
  fun node ↦ (after_answer g access node).trans (h node)

theorem fields_parses : (Node.fields : Access (Node F) F).Parses :=
  fun _ ↦ rfl

/-- A look that leaves the fields as they are. -/
theorem look_parses {access : Access F α} (h : ∀ fields, access.after fields = fields) :
    (Node.look access).Parses := by
  intro node
  rw [Node.after_look]
  cases hfields : Node.fields node with
  | error e node' => rw [after_eq_error hfields]
  | ok fields node' =>
    obtain rfl := Node.eq_putFields_of_fields hfields
    rw [after_eq_ok hfields]
    dsimp only
    rw [h]
    rfl

end Access

/-! ## Items -/

/-- As for the nodes of the item. -/
def Item.ParsesOnly (route : List Step) (item item' : Item) : Prop :=
  AnyNode.ParsesOnly route (fun other ↦ item.at? other) fun other ↦ item'.at? other

namespace Block

variable {block : Block}

theorem onHeader_parsesOnly (hblock : block.Orderly) {access : Access (Node Header) α}
    (h : access.Parses) :
    Item.ParsesOnly [.header] (.block block) (.block ((Block.onHeader access).after block)) := by
  have hheader := wraps_header.parsesOnly defersChildren_none hblock.header.1
  rw [← h] at hheader
  have hafter : (Block.onHeader access).after block =
      { block with header := access.after block.header } := Access.after_focus _ _ _ _
  rw [hafter]
  refine hheader.append [.header] (fun _ ↦ rfl) (fun _ ↦ rfl) ?_
  intro other hother
  cases other with
  | nil => rfl
  | cons step rest =>
    cases step with
    | header => exact absurd (List.prefix_append [.header] rest) hother
    | body | transaction | input | output => rfl

theorem onBody_parsesOnly (hblock : block.Orderly) {access : Access (Node BodyFields) α}
    (h : access.Parses) :
    Item.ParsesOnly [.body] (.block block) (.block ((Block.onBody access).after block)) := by
  cases hsome : block.body with
  | none =>
    rw [after_onBody, hsome]
    exact .refl _ _
  | some body =>
    have hbody := wraps_body.parsesOnly BodyFields.defersChildren (hblock.body body hsome).1
    rw [← h] at hbody
    rw [after_onBody, hsome]
    refine hbody.append [.body] ?_ (fun _ ↦ rfl) ?_
    · intro rest
      rw [Item.at?, List.singleton_append, follow, Block.child?, hsome]
      rfl
    · intro other hother
      cases other with
      | nil => rfl
      | cons step rest =>
        cases step with
        | body => exact absurd (List.prefix_append [.body] rest) hother
        | header | transaction | input | output => rfl

end Block

/-- All children in a list. A block without a body has no transactions to look at. -/
def Visit.list (children : Visit.Children) : Visit (List Item) where
  block := match children with
    | .transactions => do return (← Block.lookTransactions EStateM.get).map .transaction
    | _ => return []
  transaction := match children with
    | .inputs => do return (← Node.look (TxFields.onInputs EStateM.get)).map .input
    | .outputs => do return (← Node.look (TxFields.onOutputs EStateM.get)).map .output
    | _ => return []
  input := return []
  output := return []

namespace Visit

/-- The way from a value to the node that its accessor of one field is called on. Nothing if the
value has no such field, or if more than one node is asked. -/
def Field.target? : Field → ItemKind → Option (List Step)
  | .version, .block | .prev, .block | .merkleRoot, .block | .time, .block | .bits, .block
  | .nonce, .block | .header, .block => some [.header]
  | .transactionCount, .block | .signature, .block => some [.body]
  | .version, .transaction | .time, .transaction | .lockTime, .transaction
  | .inputCount, .transaction | .outputCount, .transaction => some []
  | .outPoint, .input | .scriptSig, .input | .sequence, .input | .hasSequence, .input
  | .coinbase, .input => some []
  | .value, .output | .scriptPubkey, .output => some []
  | _, _ => none

variable {field : Field} {route : List Step}

theorem getBlock_parsesOnly {block : Block} (hblock : block.Orderly)
    (hroute : field.target? .block = some route) :
    Item.ParsesOnly route (.block block) (.block ((getBlock field).after block)) := by
  cases field with
  | version | prev | merkleRoot | time | bits | nonce | header =>
    obtain rfl := Option.some.inj hroute
    unfold getBlock
    rw [Access.after_answer]
    exact Block.onHeader_parsesOnly hblock Access.fields_parses
  | transactionCount =>
    obtain rfl := Option.some.inj hroute
    unfold getBlock
    rw [Access.after_answer]
    exact Block.onBody_parsesOnly hblock (Access.look_parses fun _ ↦ rfl)
  | signature =>
    obtain rfl := Option.some.inj hroute
    unfold getBlock
    rw [Access.after_answer]
    exact Block.onBody_parsesOnly hblock (Access.fields_parses.answer _)
  | _ => contradiction

theorem getTransaction_parses (hroute : field.target? .transaction = some route) :
    [] = route ∧ (getTransaction field).Parses := by
  cases field with
  | version | time | lockTime | inputCount | outputCount =>
    exact ⟨Option.some.inj hroute, (Access.fields_parses.answer _).answer _⟩
  | _ => contradiction

theorem getInput_parses (hroute : field.target? .input = some route) :
    [] = route ∧ (getInput field).Parses := by
  cases field with
  | outPoint | scriptSig | sequence =>
    exact ⟨Option.some.inj hroute, (Access.fields_parses.answer _).answer _⟩
  | hasSequence | coinbase =>
    exact ⟨Option.some.inj hroute, ((Access.fields_parses.answer _).answer _).answer _⟩
  | _ => contradiction

theorem getOutput_parses (hroute : field.target? .output = some route) :
    [] = route ∧ (getOutput field).Parses := by
  cases field with
  | value | scriptPubkey =>
    exact ⟨Option.some.inj hroute, (Access.fields_parses.answer _).answer _⟩
  | _ => contradiction

end Visit

/-- A visit that parses the root of an item that is a node. -/
theorem Access.Parses.onItem [Layout F] [Grown F] [Ordered F] {visit : Visit α} {node : Node F}
    {access : Access (Node F) α} (h : access.Parses) {whole : Node F → Item}
    {wrap : Node F → AnyNode} {fieldChildren : F → Step → Option AnyNode}
    (hwrap : Wraps wrap fieldChildren) (hunparsed : DefersChildren fieldChildren)
    (hnode : node.Orderly) (hrun : visit.onItem (whole node) = Access.mapState whole (access node))
    (hat : ∀ node route, (whole node).at? route = (wrap node).at? route) :
    Item.ParsesOnly [] (whole node) (visit.onItem.after (whole node)) := by
  have hafter : visit.onItem.after (whole node) = whole (Access.after Node.fields node) :=
    (Access.after_mapState hrun).trans (congrArg whole (h node))
  rw [hafter]
  intro other hother
  dsimp only
  rw [hat, hat]
  exact hwrap.parsesOnly hunparsed hnode other hother

/-- An accessor of one field parses the node it is called on and no other. -/
theorem Item.Orderly.get_parsesOnly {item : Item} (h : item.Orderly) {field : Visit.Field}
    {route : List Step} (hroute : field.target? item.kind = some route) :
    item.ParsesOnly route ((Visit.get field).onItem.after item) := by
  cases h with
  | @block block hblock =>
    rw [Visit.after_onItem]
    exact Visit.getBlock_parsesOnly hblock hroute
  | transaction hnode =>
    obtain ⟨rfl, hparses⟩ := Visit.getTransaction_parses hroute
    exact hparses.onItem wraps_transaction TxFields.defersChildren hnode rfl fun _ _ ↦ rfl
  | input hnode =>
    obtain ⟨rfl, hparses⟩ := Visit.getInput_parses hroute
    exact hparses.onItem wraps_input defersChildren_none hnode rfl fun _ _ ↦ rfl
  | output hnode =>
    obtain ⟨rfl, hparses⟩ := Visit.getOutput_parses hroute
    exact hparses.onItem wraps_output defersChildren_none hnode rfl fun _ _ ↦ rfl

/-- A look at a list of children parses the node that has it and no other. -/
theorem Item.Orderly.list_parsesOnly {item : Item} (h : item.Orderly) {children : Visit.Children}
    (howner : item.kind = children.owner) :
    item.ParsesOnly children.lender ((Visit.list children).onItem.after item) := by
  cases h with
  | @block block hblock =>
    cases children with
    | transactions =>
      rw [Visit.after_onItem, Visit.list]
      dsimp only
      rw [Access.after_answer (List.map Item.transaction)]
      exact Block.onBody_parsesOnly hblock (Access.look_parses fun _ ↦ rfl)
    | inputs | outputs => contradiction
  | transaction hnode =>
    cases children with
    | transactions => contradiction
    | inputs =>
      have hparses : (Visit.list .inputs).transaction.Parses :=
        Access.Parses.answer (Access.look_parses fun _ ↦ rfl) (List.map Item.input)
      exact hparses.onItem wraps_transaction TxFields.defersChildren hnode rfl fun _ _ ↦ rfl
    | outputs =>
      have hparses : (Visit.list .outputs).transaction.Parses :=
        Access.Parses.answer (Access.look_parses fun _ ↦ rfl) (List.map Item.output)
      exact hparses.onItem wraps_transaction TxFields.defersChildren hnode rfl fun _ _ ↦ rfl
  | input | output => cases children <;> contradiction

end CoinWire
