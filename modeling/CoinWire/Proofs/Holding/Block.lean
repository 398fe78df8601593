import Mathlib
import CoinWire.Proofs.Holding.Transaction
import CoinWire.Proofs.Uncached

/-!
# Blocks that hold a value

The fields of a header have nothing to parse, those of a body are a list of transactions and the
signature. A block is not a node: it has a header, perhaps a body, and bytes of its own. The bytes
of the whole block are held only if every part is cached, and they are its encoding.
-/

namespace CoinWire

open Holder Plain Read

variable {σ V α β : Type}

/-! ## Headers -/

instance : Holder Header Header := Holder.plain Header

/-- A header has eighty bytes, so a read of it fails on fewer only. -/
theorem Header.spans_read : Spans size Header.read :=
  Spans.uint32.bind fun _ ↦ (Spans.take 32).bind fun _ ↦ (Spans.take 32).bind fun _ ↦
    Spans.uint32.bind fun _ ↦ Spans.uint32.bind fun _ ↦ Spans.uint32.bind fun _ ↦ Spans.pure _

instance : LawfulLayout Header Header := by
  apply LawfulLayout.plain
  · exact (Spans.skip Header.size).agrees Header.spans_read
  · intro config
    rfl
  · intro header
    exact (Header.length_wire header).symm
  · rfl
  · intro raw header
    rfl
  · intro left right
    rfl

/-! ## Bodies -/

namespace BodyFields

/-- The fields hold a body if each transaction holds the one in its place and the signature is its
own. -/
structure Holds (fields : BodyFields) (body : Body) : Prop where
  transactions : Holder.Holds fields.transactions body.transactions
  signature : fields.signature = body.signature

instance : Holder BodyFields Body where
  Holds := Holds
  Cached fields := Cached fields.transactions
  Settled fields := Settled fields.transactions
  settled_of_cached h := settled_of_cached h

/-- A question to the transactions is put to the transactions held. -/
theorem looks_onTransactions {access : Access (List Transaction) α} {R : α → β → Prop}
    {question : Question (List Tx) β} (h : Looks access R question) :
    Looks (onTransactions access) R fun body ↦ question body.transactions := by
  apply h.focus
  · exact fun fields body hfields ↦ hfields.transactions
  · exact fun fields body transactions hfields htransactions hcached ↦
      ⟨⟨htransactions, hfields.signature⟩, hcached⟩

/-- An edit of the transactions changes the transactions held, and nothing else in the body. -/
theorem edits_onTransactions {access : Access (List Transaction) α} {R : α → β → Prop}
    {change : Change (List Tx) β} (h : Edits access R change) :
    Edits (onTransactions access) R (Body.onTransactions change) := by
  apply h.focus
  · exact fun fields body hfields ↦ hfields.transactions
  · exact fun fields body transactions values hfields htransactions ↦
      ⟨htransactions, hfields.signature⟩
  · exact fun body ↦ rfl

/-- A scan skips exactly the bytes that the plain reader reads, and it fails where that fails. -/
theorem scan_agrees :
    Agrees (Layout.scan BodyFields) (Plain.read : Read Body) fun _ _ ↦ True := by
  have htransaction : Agrees (Layout.scan TxFields) Tx.read fun _ _ ↦ True :=
    LawfulLayout.scan_agrees
  apply (htransaction.counted TxFields.minSize "transaction").discard_left.bind
  intro _ transactions _
  rw [← bind_pure Read.skipCounted]
  apply skipCounted_agrees.bind
  intro _ signature _
  exact .pure trivial

/-- Parsed fields hold what the plain reader reads, with every transaction cached if bytes are kept.
-/
theorem parse_agrees (config : ParseConfig) :
    Agrees (Layout.parse config : Read BodyFields) (Plain.read : Read Body) fun fields body ↦
      Holder.Holds fields body ∧ (config.retain = true → Cached fields) := by
  apply ((Node.read_agrees config).counted TxFields.minSize "transaction").bind
  intro transactions values htransactions
  apply (Agrees.refl Read.countedBytes).bind
  rintro signature _ rfl
  apply Agrees.pure
  obtain ⟨hholds, hcached⟩ := Node.holds_of_read htransactions
  exact ⟨⟨hholds, rfl⟩, hcached⟩

/-- The fields encode to the encoding of the body they hold. -/
theorem looks_encode :
    Looks (Layout.encode : Access BodyFields Bytes) Eq fun body ↦ .ok (wire body) := by
  have hlast (transactions : List Bytes) :
      Looks (do
        let fields ← get
        return VarInt.ofLength transactions ++ transactions.flatten ++ fields.signature.counted :
          Access BodyFields Bytes) Eq
        fun body : Body ↦ .ok (VarInt.ofLength transactions ++ transactions.flatten ++
          body.signature.counted) := by
    apply Looks.gets
    intro fields body hfields
    rw [hfields.signature]
  apply ((looks_onTransactions Node.looks_bytes.each).bind_ok hlast).congr
  intro body
  simp only [VarInt.ofLength, List.length_map, ← List.flatMap_def]
  rfl

/-- Once the fields are encoded, every transaction has been. -/
theorem settled_of_encode {fields fields' : BodyFields} {bytes : Bytes}
    (h : Layout.encode fields = .ok bytes fields') : Settled fields' := by
  obtain ⟨transactions, after, htransactions, h⟩ := Access.bind_eq_ok_iff.1 h
  obtain ⟨nodes, hnodes, rfl⟩ := Access.focus_eq_ok_iff.1 htransactions
  injection h with _ hfields'
  rw [← hfields']
  exact Node.settled_of_each_bytes hnodes

theorem encodedLength_eq {fields : BodyFields} {body : Body} (h : Holder.Holds fields body) :
    Layout.encodedLength fields = (wire body).length := by
  have htransactions : Node.totalLength fields.transactions =
      (body.transactions.flatMap Tx.wire).length := Node.totalLength_eq h.transactions
  have hcount : fields.transactions.length = body.transactions.length :=
    List.Forall₂.length_eq h.transactions
  calc
    Layout.encodedLength fields = VarInt.lengthSize fields.transactions.length +
        Node.totalLength fields.transactions + Bytes.countedSize fields.signature.length := rfl
    _ = VarInt.lengthSize body.transactions.length + (body.transactions.flatMap Tx.wire).length +
        Bytes.countedSize body.signature.length := by
      rw [htransactions, hcount, h.signature]
    _ = body.wire.length := by
      simp only [Body.wire, List.length_append, VarInt.length_ofLength, Bytes.length_counted]

/-- Where the transactions begin in the encoding. -/
theorem drop_wire {fields : BodyFields} {body : Body} (h : Holds fields body) :
    (wire body).drop (VarInt.lengthSize fields.transactions.length) =
      body.transactions.flatMap wire ++ body.signature.counted := by
  have hwire : wire body = VarInt.ofLength body.transactions ++
      (body.transactions.flatMap wire ++ body.signature.counted) := by
    simp [Plain.wire, Body.wire]
  rw [hwire]
  exact Node.drop_ofLength h.transactions _

/-- Encoded fields that adopt their encoding hold the same body, with every transaction cached. -/
theorem adopt_wire {fields : BodyFields} {body : Body} (h : Holder.Holds fields body)
    (hsettled : Settled fields) :
    Holder.Holds (Layout.adopt (wire body) fields) body ∧
      Cached (Layout.adopt (wire body) fields) := by
  obtain ⟨transactions, htransactions, hholds, hcached⟩ :=
    Node.adoptEach_append h.transactions hsettled body.signature.counted
  have hadopt : Layout.adopt (wire body) fields = { fields with transactions } := by
    dsimp only [Layout.adopt]
    rw [drop_wire h, htransactions]
  rw [hadopt]
  exact ⟨⟨hholds, h.signature⟩, hcached⟩

/-- Fields are compared as the bodies they hold. -/
theorem compares {left right : BodyFields} {v w : Body} (hv : Holder.Holds left v)
    (hw : Holder.Holds right w) : Compares (Layout.compare left right) left right v w := by
  have htransactions := compares_lists Node.compares hv.transactions hw.transactions
  refine ⟨?_, ⟨⟨htransactions.left.1, hv.signature⟩, htransactions.left.2⟩,
    ⟨⟨htransactions.right.1, hw.signature⟩, htransactions.right.2⟩⟩
  change ((Compared.lists Node.compare left.transactions right.transactions).equal &&
    decide (left.signature = right.signature)) = true ↔ v = w
  rw [Bool.and_eq_true, htransactions.equal, decide_eq_true_iff, hv.signature, hw.signature,
    Body.ext_iff]

instance : LawfulLayout BodyFields Body where
  scan_agrees := scan_agrees
  parse_agrees := parse_agrees
  encodedLength_eq := encodedLength_eq
  looks_encode := looks_encode
  settled_of_encode := settled_of_encode
  adopt := adopt_wire
  compares := compares

end BodyFields

/-! ## Blocks -/

namespace Block

/-- Header and body are held part by part, and the block's own bytes, if kept, are the encoding. -/
structure Holds (block : Block) (v : PlainBlock) : Prop where
  header : Holder.Holds block.header v.header
  body : Option.Rel Holder.Holds block.body v.body
  raw : ∀ raw, block.raw = some raw →
    raw = v.wire ∧ Cached block.header ∧ ∀ body ∈ block.body, Cached body

instance : Holder Block PlainBlock where
  Holds := Holds
  Cached block := Cached block.header ∧ ∀ body ∈ block.body, Cached body
  Settled block := Settled block.header ∧ ∀ body ∈ block.body, Settled body
  settled_of_cached h :=
    ⟨settled_of_cached h.1, fun body hbody ↦ settled_of_cached (h.2 body hbody)⟩

variable {block : Block} {v : PlainBlock}

/-- Either there is a body on both sides, or on neither. -/
theorem Holds.body_cases (h : block.Holds v) :
    (block.body = none ∧ v.body = none) ∨
      ∃ body body', block.body = some body ∧ v.body = some body' ∧ Holder.Holds body body' := by
  obtain ⟨header, body, raw⟩ := block
  obtain ⟨header', body'⟩ := v
  obtain hbody | hbody := h.body
  · exact .inr ⟨_, _, rfl, rfl, ‹_›⟩
  · exact .inl ⟨rfl, rfl⟩

/-- A block is read wherever the plain reader reads one, with the same bytes passed, and it holds
that block. -/
theorem read_agrees (config : ParseConfig) :
    Agrees (Block.read config) PlainBlock.read Holds := by
  have hheaders : Agrees (Node.read config : Read (Node Header)) Header.read fun node v ↦
      node.Holds v ∧ node.cached = config.retain := Node.read_agrees config
  have hbodies : Agrees (Node.read config : Read (Node BodyFields)) Body.read fun node v ↦
      node.Holds v ∧ node.cached = config.retain := Node.read_agrees config
  intro reader
  have hslice {v : PlainBlock} {after : Reader} (hread : PlainBlock.read reader = .ok v after) :
      after.sliceFrom reader.position = v.wire :=
    PlainBlock.accepts_read.sliceFrom_eq hread
  rw [PlainBlock.read_apply] at hslice ⊢
  rw [read_apply]
  obtain ⟨header, v, middle, hheader, hv, hholds, hcached⟩ |
    ⟨e, e', after, after', he, he', hkind⟩ := hheaders reader
  · rw [hheader]
    rw [hv] at hslice ⊢
    dsimp only at hslice ⊢
    obtain ⟨body, w, after, hbody, hw, hholds', hcached'⟩ |
      ⟨e, e', after, after', he, he', hkind⟩ := hbodies middle
    · rw [hbody]
      rw [hw] at hslice ⊢
      refine .inl ⟨_, _, after, rfl, rfl, hholds, .some hholds', ?_⟩
      intro raw hraw
      dsimp only at hraw
      split_ifs at hraw with hretain
      injection hraw with hraw
      refine ⟨hraw ▸ hslice rfl, hcached.trans hretain, ?_⟩
      rintro _ ⟨⟩
      exact hcached'.trans hretain
    · rw [he, he']
      exact .inr ⟨e, e', after, after', rfl, rfl, hkind⟩
  · rw [he, he']
    exact .inr ⟨e, e', after, after', rfl, rfl, hkind⟩

theorem holds_new (header : Header) : (Block.new header).Holds ⟨header, none⟩ :=
  ⟨Node.holds_ofFields rfl ParseConfig.eager, .none, by rintro _ ⟨⟩⟩

theorem Holds.headerOnly (h : block.Holds v) : block.headerOnly.Holds ⟨v.header, none⟩ :=
  ⟨h.header, .none, by rintro _ ⟨⟩⟩

/-! ### Looking -/

/-- A header that holds the same value can be put back, if it is cached where it was. -/
theorem Holds.putHeader (h : block.Holds v) {header : Node Header}
    (hholds : Holder.Holds header v.header) (hcached : Cached block.header → Cached header) :
    Holder.Holds { block with header } v ∧ (Cached block → Cached { block with header }) := by
  refine ⟨⟨hholds, h.body, ?_⟩, And.imp_left hcached⟩
  intro raw hraw
  obtain ⟨hwire, hcachedHeader, hcachedBody⟩ := h.raw raw hraw
  exact ⟨hwire, hcached hcachedHeader, hcachedBody⟩

/-- A question to the header is put to the header held. -/
theorem looks_onHeader {access : Access (Node Header) α} {R : α → β → Prop}
    {question : Question Header β} (h : Looks access R question) :
    Looks (onHeader access) R fun v ↦ question v.header := by
  apply h.focus
  · exact fun block v hblock ↦ hblock.header
  · exact fun block v header hblock ↦ hblock.putHeader

/-- A body that holds the same value can be put back, if it is cached where it was. -/
theorem Holds.putBody (h : block.Holds v) {body body' : Node BodyFields} {w : Body}
    (hbody : block.body = some body) (hw : v.body = some w) (hholds : Holder.Holds body' w)
    (hcached : Cached body → Cached body') :
    Holder.Holds { block with body := some body' } v ∧
      (Cached block → Cached { block with body := some body' }) := by
  refine ⟨⟨h.header, ?_, ?_⟩, ?_⟩
  · rw [hw]
    exact .some hholds
  · intro raw hraw
    obtain ⟨hwire, hcachedHeader, hcachedBody⟩ := h.raw raw hraw
    refine ⟨hwire, hcachedHeader, ?_⟩
    rintro _ ⟨⟩
    exact hcached (hcachedBody body hbody)
  · rintro ⟨hcachedHeader, hcachedBody⟩
    refine ⟨hcachedHeader, ?_⟩
    rintro _ ⟨⟩
    exact hcached (hcachedBody body hbody)

/-- A look at the body of a block that has one. -/
theorem Holds.look_body (h : block.Holds v) {body : Node BodyFields} {w : Body}
    (hbody : block.body = some body) (hw : v.body = some w) {access : Access (Node BodyFields) α}
    {R : α → β → Prop} {question : Question Body β} (hlook : Looks access R question) :
    ∃ block', Holder.Holds block' v ∧ (Cached block → Cached block') ∧
      ((∃ a b, Access.mapState (fun body' ↦ { block with body := some body' }) (access body) =
        .ok a block' ∧ question w = .ok b ∧ R a b) ∨
      ∃ e : Absence, Access.mapState (fun body' ↦ { block with body := some body' })
        (access body) = .error e.error block' ∧ question w = .error e) := by
  have hholds : Holder.Holds body w := by
    have hrel := h.body
    rw [hbody, hw] at hrel
    cases hrel
    assumption
  obtain ⟨body', hholds', hcached, hanswer⟩ := hlook body w hholds
  obtain ⟨hput, hcached'⟩ := h.putBody hbody hw hholds' hcached
  refine ⟨_, hput, hcached', ?_⟩
  obtain ⟨a, b, ha, hb, hR⟩ | ⟨e, he, hf⟩ := hanswer
  · rw [ha]
    exact .inl ⟨a, b, rfl, hb, hR⟩
  · rw [he]
    exact .inr ⟨e, rfl, hf⟩

/-- A question to the body is put to the body held, and a block without one fails it on both sides.
-/
theorem looks_onBody {access : Access (Node BodyFields) α} {R : α → β → Prop}
    {question : Question Body β} (h : Looks access R question) :
    Looks (onBody access) R (PlainBlock.askBody question) := by
  intro block v hblock
  unfold onBody PlainBlock.askBody
  obtain ⟨hnone, hnone'⟩ | ⟨body, w, hbody, hw, -⟩ := hblock.body_cases
  · rw [hnone, hnone']
    exact ⟨block, hblock, id, .inr ⟨.headerOnly, rfl, rfl⟩⟩
  · rw [hw, hbody]
    exact hblock.look_body hbody hw h

/-- A block without a body passes the question over on both sides. -/
theorem looks_onBody? {access : Access (Node BodyFields) α} {R : α → β → Prop}
    {question : Question Body β} (h : Looks access R question) :
    Looks (onBody? access) (Option.Rel R) (PlainBlock.askBody? question) := by
  intro block v hblock
  rw [onBody?_apply]
  unfold PlainBlock.askBody?
  obtain ⟨hnone, hnone'⟩ | ⟨body, w, hbody, hw, -⟩ := hblock.body_cases
  · rw [hnone, hnone']
    exact ⟨block, hblock, id, .inl ⟨none, none, rfl, rfl, .none⟩⟩
  · rw [hw, hbody]
    exact hblock.look_body hbody hw (h.map fun _ _ ↦ Option.Rel.some)

theorem looks_encode : Looks Block.encode Eq fun v ↦ .ok v.wire := by
  have h := (looks_onHeader Node.looks_bytes).bind_ok fun header ↦
    (looks_onBody? Node.looks_bytes).bind fun body body' hbody ↦
      Looks.pure (congrArg (fun body ↦ header ++ body.getD []) (eq_of_rel_eq hbody))
  apply h.congr
  rintro ⟨header, body⟩
  cases body <;> rfl

/-- The bytes of a block are the encoding of the value held, whether they are kept or made. -/
theorem looks_bytes : Looks Block.bytes Eq fun v ↦ .ok v.wire := by
  intro block v hblock
  rw [bytes_apply]
  cases hraw : block.raw with
  | some raw => exact ⟨block, hblock, id, .inl ⟨raw, _, rfl, rfl, (hblock.raw raw hraw).1⟩⟩
  | none => exact looks_encode block v hblock

theorem settled_of_encode {block' : Block} {raw : Bytes} (h : Block.encode block = .ok raw block') :
    Holder.Settled block' := by
  obtain ⟨header, middle, hheader, hrest⟩ := Access.bind_eq_ok_iff.1 h
  obtain ⟨body, after, hbody, hlast⟩ := Access.bind_eq_ok_iff.1 hrest
  obtain ⟨node, hnode, rfl⟩ := Access.focus_eq_ok_iff.1 hheader
  rw [Access.pure_apply] at hlast
  injection hlast with _ hblock'
  subst hblock'
  have hsettled := Node.settled_of_bytes hnode
  rw [onBody?_apply] at hbody
  obtain ⟨header', body', raw'⟩ := block
  cases body' with
  | none =>
    injection hbody with _ hafter
    subst hafter
    exact ⟨hsettled, by rintro _ ⟨⟩⟩
  | some body' =>
    dsimp only at hbody
    rw [Access.map_apply] at hbody
    cases hbytes : Node.bytes body' with
    | error e body'' => rw [hbytes] at hbody; contradiction
    | ok raw body'' =>
      rw [hbytes] at hbody
      injection hbody with _ hafter
      subst hafter
      refine ⟨hsettled, ?_⟩
      rintro _ ⟨⟩
      exact Node.settled_of_bytes hbytes

/-- The length told for a block is that of its encoding, though nothing is encoded for it. -/
theorem Holds.length_eq (h : block.Holds v) : block.length = v.wire.length := by
  unfold Block.length PlainBlock.wire
  rw [List.length_append, Node.Holds.length_eq h.header]
  obtain ⟨hnone, hnone'⟩ | ⟨body, w, hbody, hw, hholds⟩ := h.body_cases
  · rw [hnone, hnone']
    rfl
  · rw [hbody, hw]
    exact congrArg _ (Node.Holds.length_eq hholds)

theorem looks_contents : Looks Block.contents Eq fun v ↦ .ok v := by
  have hlast (transactions : List Tx) :
      Looks (do return ⟨transactions, (← get).signature⟩ : Access BodyFields Body) Eq
        fun body : Body ↦ .ok ⟨transactions, body.signature⟩ := by
    apply Looks.gets
    intro fields body hfields
    rw [hfields.signature]
  have hheader : Looks (Node.fields : Access (Node Header) Header) Eq fun header ↦ .ok header :=
    Node.looks_fields
  have hbody := Node.looks_look (F := BodyFields)
    ((BodyFields.looks_onTransactions Transaction.looks_contents.each).bind_ok hlast)
  have h := (looks_onHeader hheader).bind_ok fun header ↦
    (looks_onBody? hbody).bind fun body body' hrel ↦
      Looks.pure (congrArg (PlainBlock.mk header) (eq_of_rel_eq hrel))
  apply h.congr
  rintro ⟨header, body⟩
  cases body with
  | none => rfl
  | some body =>
    change Except.ok _ = Except.ok _
    simp only [List.map_id']

/-- Blocks are compared as the values they hold. -/
theorem compares {left right : Block} {v w : PlainBlock} (hv : Holder.Holds left v)
    (hw : Holder.Holds right w) : Compares (Block.compare left right) left right v w := by
  have hheader := Node.compares hv.header hw.header
  obtain ⟨hleft, hcached⟩ := hv.putHeader hheader.left.1 hheader.left.2
  obtain ⟨hright, hcached'⟩ := hw.putHeader hheader.right.1 hheader.right.2
  unfold Block.compare
  dsimp only
  by_cases hequal : (Node.compare left.header right.header).equal = true
  · have hheaders : v.header = w.header := hheader.equal.1 hequal
    rw [if_pos hequal]
    obtain ⟨hnone, hnone'⟩ | ⟨body, x, hbody, hx, hholds⟩ := hv.body_cases <;>
      obtain ⟨hrightnone, hwnone⟩ | ⟨body', y, hbody', hy, hholds'⟩ := hw.body_cases
    · rw [hnone] at hleft hcached ⊢
      rw [hrightnone] at hright hcached' ⊢
      refine ⟨?_, ⟨hleft, hcached⟩, ⟨hright, hcached'⟩⟩
      rw [PlainBlock.ext_iff, hnone', hwnone]
      exact iff_of_true rfl ⟨hheaders, rfl⟩
    · rw [hnone] at hleft hcached ⊢
      rw [hbody'] at hright hcached' ⊢
      refine ⟨?_, ⟨hleft, hcached⟩, ⟨hright, hcached'⟩⟩
      rw [PlainBlock.ext_iff, hnone', hy]
      exact iff_of_false Bool.false_ne_true fun hboth ↦ Option.some_ne_none y hboth.2.symm
    · rw [hbody] at hleft hcached ⊢
      rw [hrightnone] at hright hcached' ⊢
      refine ⟨?_, ⟨hleft, hcached⟩, ⟨hright, hcached'⟩⟩
      rw [PlainBlock.ext_iff, hx, hwnone]
      exact iff_of_false Bool.false_ne_true fun hboth ↦ Option.some_ne_none x hboth.2
    · rw [hbody, hbody']
      have hbodies := Node.compares hholds hholds'
      obtain ⟨hleft', hkeepleft⟩ := hleft.putBody hbody hx hbodies.left.1 hbodies.left.2
      obtain ⟨hright', hkeepright⟩ := hright.putBody hbody' hy hbodies.right.1 hbodies.right.2
      refine ⟨?_, ⟨hleft', hkeepleft ∘ hcached⟩, ⟨hright', hkeepright ∘ hcached'⟩⟩
      rw [PlainBlock.ext_iff, hx, hy, Option.some_inj, ← hbodies.equal]
      exact ⟨fun hsame ↦ ⟨hheaders, hsame⟩, And.right⟩
  · rw [if_neg hequal]
    refine ⟨?_, ⟨hleft, hcached⟩, ⟨hright, hcached'⟩⟩
    rw [PlainBlock.ext_iff, ← hheader.equal]
    exact iff_of_false Bool.false_ne_true fun hboth ↦ hequal hboth.1

/-! ### Editing -/

/-- Without bytes of the whole block there is nothing that ties header and body together. -/
theorem Holds.replaceHeader (h : block.Holds v) {header : Node Header} {w : Header}
    (hholds : Holder.Holds header w) :
    Holder.Holds { block with header, raw := none } { v with header := w } :=
  ⟨hholds, h.body, by rintro _ ⟨⟩⟩

theorem Holds.replaceBody (h : block.Holds v) {body : Node BodyFields} {w : Body}
    (hholds : Holder.Holds body w) :
    Holder.Holds { block with body := some body, raw := none } { v with body := some w } :=
  ⟨h.header, .some hholds, by rintro _ ⟨⟩⟩

/-- An edit of the header changes the header held, and the block's own bytes are dropped. -/
theorem edits_editHeader {access : Access Header α} {R : α → β → Prop} {change : Change Header β}
    (h : Edits access R change) : Edits (editHeader access) R (PlainBlock.onHeader change) := by
  intro block v hblock
  rw [editHeader_apply]
  unfold onHeader Access.focus PlainBlock.onHeader Change.onPart
  dsimp only
  obtain ⟨a, header, b, w, ha, hb, hR, hholds⟩ | ⟨e, header, he, hf, hholds⟩ :=
    Node.edits_edit h block.header v.header hblock.header
  · rw [ha, hb]
    exact .inl ⟨a, _, b, _, rfl, rfl, hR, hblock.replaceHeader hholds⟩
  · rw [he, hf]
    exact .inr ⟨e, _, rfl, rfl, hblock.replaceHeader hholds⟩

/-- An edit of the body changes the body held, and the block's own bytes are dropped. -/
theorem edits_editBody {access : Access BodyFields α} {R : α → β → Prop} {change : Change Body β}
    (h : Edits access R change) : Edits (editBody access) R (PlainBlock.onBody change) := by
  intro block v hblock
  rw [editBody_apply]
  unfold onBody PlainBlock.onBody
  dsimp only
  obtain ⟨hnone, hnone'⟩ | ⟨body, w, hbody, hw, hholds⟩ := hblock.body_cases
  · rw [hnone, hnone']
    refine .inr ⟨.headerOnly, _, rfl, rfl, hblock.header, ?_, by rintro _ ⟨⟩⟩
    rw [hnone']
    exact .none
  · rw [hbody, hw]
    dsimp only
    obtain ⟨a, body', b, w', ha, hb, hR, hholds'⟩ | ⟨e, body', he, hf, hholds'⟩ :=
      Node.edits_edit h body w hholds
    · rw [ha, hb]
      exact .inl ⟨a, _, b, _, rfl, rfl, hR, hblock.replaceBody hholds'⟩
    · have hsame := hblock.replaceBody hholds'
      rw [← hw] at hsame
      rw [he, hf]
      exact .inr ⟨e, _, rfl, rfl, hsame⟩

/-- An empty body holds a body without transactions. -/
theorem Holds.withBody (h : block.Holds v) :
    Holder.Holds { block.withBody with raw := none }
      { v with body := some (v.body.getD ⟨[], []⟩) } := by
  unfold Block.withBody Block.isHeaderOnly
  obtain ⟨hnone, hnone'⟩ | ⟨body, w, hbody, hw, hholds⟩ := h.body_cases
  · have hempty : Holder.Holds (⟨[], []⟩ : BodyFields) (⟨[], []⟩ : Body) := ⟨.nil, rfl⟩
    rw [hnone, hnone']
    exact h.replaceBody (Node.holds_ofFields hempty block.header.config)
  · rw [hbody, hw]
    have hsame := h.replaceBody hholds
    rw [← hbody] at hsame
    exact hsame

/-- A transaction is added to the value held, with a new body where there was none. -/
theorem edits_addTransaction {transaction : Transaction} {tx : Tx}
    (h : Holder.Holds transaction tx) :
    Edits (addTransaction transaction) Eq (PlainBlock.addTransaction tx) := by
  intro block v hblock
  obtain ⟨_, block', _, v', hblock', hv', -, hholds⟩ | ⟨e, block', he, hf, -⟩ :=
    edits_editBody (BodyFields.edits_onTransactions (edits_append h)) _ _ hblock.withBody
  · injection hv' with hv'
    injection hv' with _ hv'
    subst hv'
    exact .inl ⟨(), block', (), _, hblock', rfl, rfl, hholds⟩
  · contradiction

theorem edits_invalidate : Edits invalidate Eq (Change.ask fun _ ↦ .ok ()) := by
  intro block v hblock
  obtain ⟨header, hheader, hholds⟩ := Node.Holds.invalidate hblock.header
  have hblock' := hblock.replaceHeader hholds
  rw [invalidate_apply, hheader]
  dsimp only
  rw [Access.discard_apply, onBody?_apply]
  dsimp only
  obtain ⟨hnone, hnone'⟩ | ⟨body, w, hbody, hw, hholds'⟩ := hblock.body_cases
  · rw [hnone] at hblock' ⊢
    exact .inl ⟨(), _, (), v, rfl, rfl, rfl, hblock'⟩
  · obtain ⟨body', hbody', hholds''⟩ := Node.Holds.invalidate hholds'
    have hboth := hblock'.replaceBody hholds''
    rw [← hw] at hboth
    rw [hbody]
    dsimp only
    rw [Access.map_apply, hbody']
    exact .inl ⟨(), _, (), v, rfl, rfl, rfl, hboth⟩

/-- A block that adopts its encoding holds the same value: header and body get their own parts of
it. -/
theorem Holds.adopt (h : block.Holds v) (hsettled : Settled block) :
    Holder.Holds (block.adopt v.wire) v := by
  have hlength : block.header.length = v.header.wire.length := Node.Holds.length_eq h.header
  have htake : v.wire.take block.header.length = v.header.wire := List.take_left' hlength.symm
  have hdrop : v.wire.drop block.header.length = (v.body.map Body.wire).getD [] :=
    List.drop_left' hlength.symm
  have hheader : Holder.Holds (block.header.adoptIfKept v.header.wire) v.header :=
    Node.Holds.adoptIfKept h.header hsettled.1
  have hbody : Option.Rel Holder.Holds
      (block.body.map (Node.adoptIfKept ((v.body.map Body.wire).getD []))) v.body := by
    obtain ⟨hnone, hnone'⟩ | ⟨body, w, hbody, hw, hholds⟩ := h.body_cases
    · rw [hnone, hnone']
      exact .none
    · rw [hbody, hw]
      exact .some (Node.Holds.adoptIfKept hholds (hsettled.2 body hbody))
  unfold Block.adopt
  dsimp only
  rw [htake, hdrop]
  split_ifs with hcached
  · refine ⟨hheader, hbody, ?_⟩
    rintro _ ⟨⟩
    rw [isCached, isBodyCached, Bool.and_eq_true, Option.all_eq_true] at hcached
    exact ⟨rfl, hcached⟩
  · refine ⟨hheader, hbody, ?_⟩
    intro raw hraw
    obtain ⟨hwire, hcachedHeader, hcachedBody⟩ := h.raw raw hraw
    refine ⟨hwire, Node.cached_adoptIfKept _ hcachedHeader, ?_⟩
    intro body' hbody'
    obtain ⟨body, hmem, rfl⟩ := Option.mem_map.1 hbody'
    exact Node.cached_adoptIfKept _ (hcachedBody body hmem)

/-- Serializing answers with the encoding of the value and leaves the value as it was. -/
theorem edits_serialize : Edits serialize Eq (Change.ask fun v ↦ .ok v.wire) := by
  intro block v hblock
  rw [serialize_apply]
  cases hraw : block.raw with
  | some raw => exact .inl ⟨raw, block, _, v, rfl, rfl, (hblock.raw raw hraw).1, hblock⟩
  | none =>
    obtain ⟨_, block', hencode, rfl, hholds⟩ := looks_encode.exists_of_ok hblock rfl
    have hsettled := settled_of_encode hencode
    rw [hencode]
    exact .inl ⟨_, _, _, v, rfl, rfl, rfl, hholds.adopt hsettled⟩

end Block

end CoinWire
