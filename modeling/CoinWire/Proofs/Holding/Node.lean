import Mathlib
import CoinWire.Proofs.Agreement
import CoinWire.Proofs.Grammar
import CoinWire.Proofs.Holding

/-!
# Nodes that hold a value

The invariant of a node. Parsed fields hold the value, and the bytes of a node without fields are
its encoding. A cached node holds the encoding and everything below it is cached. A node that is
cached before it is parsed must be one that keeps its bytes by configuration, or its children would
come out of the parse uncached; a node of another configuration is cached by adoption only, and
then it was parsed for the encoding before. A hash that is kept is the hash of the encoding.

Each operation on nodes has one law here. The laws ask of the fields what `LawfulLayout` says, so
every kind of node gets them from its own layout.
-/

namespace CoinWire

open Holder Plain Read

variable {F V σ α β : Type}

namespace Node

variable [Plain V] [Holder F V]

/-- Bytes and fields, where they are there, are those of one and the same value. -/
structure Holds (node : Node F) (v : V) : Prop where
  parsed : ∀ fields, node.parsed = some fields → Holder.Holds fields v
  unparsed : node.parsed = none → node.raw = some (wire v) ∧ Fits v ∧
    (node.cached = true → node.config.retain = true)
  cached : node.cached = true → node.raw = some (wire v) ∧
    ∀ fields, node.parsed = some fields → Holder.Cached fields
  digest : ∀ hash, node.digest = some hash → hash = Hash.double (wire v)

def Settled (node : Node F) : Prop :=
  node.cached = true ∨ ∃ fields, node.parsed = some fields ∧ Holder.Settled fields

instance : Holder (Node F) V where
  Holds := Holds
  Cached node := node.cached = true
  Settled := Settled
  settled_of_cached := .inl

end Node

/-- The verdict of a comparison is that of the values, and both sides still hold them. -/
structure Compares [Holder σ V] (compared : Compared σ) (left right : σ) (v w : V) : Prop where
  equal : compared.equal = true ↔ v = w
  left : Holds compared.left v ∧ (Cached left → Cached compared.left)
  right : Holds compared.right w ∧ (Cached right → Cached compared.right)

/-- What the operations on nodes ask of a kind of fields. -/
class LawfulLayout (F : Type) (V : outParam Type) [Layout F] [Plain V] [Holder F V] : Prop where
  scan_agrees : Agrees (Layout.scan F) (Plain.read : Read V) fun _ _ ↦ True
  parse_agrees (config : ParseConfig) :
    Agrees (Layout.parse config : Read F) (Plain.read : Read V) fun fields v ↦
      Holds fields v ∧ (config.retain = true → Cached fields)
  encodedLength_eq {fields : F} {v : V} (h : Holds fields v) :
    Layout.encodedLength fields = (wire v).length
  looks_encode : Looks (Layout.encode : Access F Bytes) Eq fun v ↦ .ok (wire v)
  settled_of_encode {fields fields' : F} {bytes : Bytes}
    (h : Layout.encode fields = .ok bytes fields') : Settled fields'
  adopt {fields : F} {v : V} (h : Holds fields v) (hsettled : Settled fields) :
    Holds (Layout.adopt (wire v) fields) v ∧ Cached (Layout.adopt (wire v) fields)
  compares {left right : F} {v w : V} (hv : Holds left v) (hw : Holds right w) :
    Compares (Layout.compare left right) left right v w

namespace Node

section Invariant

variable [Plain V] [Holder F V] {node : Node F} {v : V}

/-- Fields that hold the same value can be put back, if they are cached where they were. -/
theorem Holds.putFields {fields fields' : F} (h : node.Holds v)
    (hparsed : node.parsed = some fields) (hholds : Holder.Holds fields' v)
    (hcached : Holder.Cached fields → Holder.Cached fields') :
    (node.putFields fields').Holds v := by
  refine ⟨?_, ?_, ?_, h.digest⟩
  · rintro _ ⟨⟩
    exact hholds
  · rintro ⟨⟩
  · intro hnode
    refine ⟨(h.cached hnode).1, ?_⟩
    rintro _ ⟨⟩
    exact hcached ((h.cached hnode).2 fields hparsed)

/-- A node made of fields holds what they hold. -/
theorem holds_ofFields {fields : F} (h : Holder.Holds fields v) (config : ParseConfig) :
    (ofFields fields config).Holds v := by
  refine ⟨?_, ?_, ?_, ?_⟩
  · rintro _ ⟨⟩
    exact h
  · rintro ⟨⟩
  · rintro ⟨⟩
  · rintro _ ⟨⟩

theorem Holds.cached?_eq (h : node.Holds v) :
    node.cached? = if node.cached then some (wire v) else none := by
  unfold Node.cached?
  split_ifs with hcached
  · exact (h.cached hcached).1
  · rfl

end Invariant

variable [Layout F] [Plain V] [Holder F V] [LawfulLayout F V] {node : Node F} {v : V}

/-! ## Reading -/

/-- Lazily or not, a node is made exactly where a plain value can be read, and it holds that
value. -/
theorem read_agrees (config : ParseConfig) :
    Agrees (Node.read config : Read (Node F)) (Plain.read : Read V) fun node v ↦
      node.Holds v ∧ node.cached = config.retain := by
  intro reader
  cases hlazy : config.lazy with
  | true =>
    rw [read_lazy hlazy]
    obtain ⟨a, v, after, ha, hv, -⟩ | ⟨e, e', after, after', he, he', hkind⟩ :=
      LawfulLayout.scan_agrees (F := F) reader
    · have hraw := accepts_read.sliceFrom_eq hv
      obtain ⟨hfits, -⟩ := accepts_read.eq_ok_iff.1 hv
      rw [ha]
      refine .inl ⟨_, v, after, rfl, hv, ⟨?_, ?_, ?_, ?_⟩, rfl⟩
      · simp
      · exact fun _ ↦ ⟨congrArg some hraw, hfits, id⟩
      · exact fun _ ↦ ⟨congrArg some hraw, by simp⟩
      · simp
    · rw [he]
      exact .inr ⟨e, e', after, after', rfl, he', hkind⟩
  | false =>
    rw [read_eager hlazy]
    obtain ⟨fields, v, after, ha, hv, hholds, hcached⟩ | ⟨e, e', after, after', he, he', hkind⟩ :=
      LawfulLayout.parse_agrees (F := F) config reader
    · have hraw := accepts_read.sliceFrom_eq hv
      rw [ha]
      refine .inl ⟨_, v, after, rfl, hv, ⟨?_, ?_, ?_, ?_⟩, rfl⟩
      · simpa using hholds
      · simp
      · intro hretain
        dsimp only at hretain
        simpa [hretain, hraw] using hcached hretain
      · simp
    · rw [he]
      exact .inr ⟨e, e', after, after', rfl, he', hkind⟩

/-! ## Looking -/

/-- The bytes of a node without fields can be parsed, and the parse changes nothing else. -/
theorem fields_eq (h : node.Holds v) :
    ∃ fields, Node.fields node = .ok fields (node.putFields fields) ∧
      (node.putFields fields).Holds v := by
  cases hparsed : node.parsed with
  | some fields =>
    have hself : node.putFields fields = node := by
      rw [putFields, ← hparsed]
    refine ⟨fields, ?_, ?_⟩
    · rw [hself, Node.fields, hparsed]
    · rwa [hself]
  | none =>
    obtain ⟨hraw, hfits, hretain⟩ := h.unparsed hparsed
    have hread : (Plain.read : Read V) (Reader.ofBytes (wire v)) = .ok v _ :=
      accepts_read.eq_ok_iff.2 ⟨hfits, List.prefix_rfl, rfl⟩
    obtain ⟨fields, w, after, ha, hw, hholds, hcached⟩ | ⟨e, e', after, after', he, he', -⟩ :=
      LawfulLayout.parse_agrees (F := F) node.config (Reader.ofBytes (wire v))
    · rw [hread] at hw
      injection hw with hvw
      subst hvw
      refine ⟨fields, ?_, ⟨?_, ?_, ?_, h.digest⟩⟩
      · simp only [Node.fields, hparsed, hraw, Access.answer, ha, Node.putFields]
      · rintro _ ⟨⟩
        exact hholds
      · rintro ⟨⟩
      · intro hnode
        refine ⟨hraw, ?_⟩
        rintro _ ⟨⟩
        exact hcached (hretain hnode)
    · rw [hread] at he'
      contradiction

/-- What a look at the fields finds holds the value. -/
theorem holds_fields (h : node.Holds v) {fields : F} {node' : Node F}
    (hfields : Node.fields node = .ok fields node') : Holder.Holds fields v := by
  obtain ⟨found, hfound, hholds⟩ := fields_eq h
  rw [hfields] at hfound
  injection hfound with hsame
  exact hholds.parsed fields (congrArg some hsame.symm)

/-- A look at the fields, parsed before or not, is a question to the value. -/
theorem looks_look {access : Access F α} {R : α → β → Prop} {question : Question V β}
    (h : Looks access R question) : Looks (Node.look access) R question := by
  intro node v hnode
  obtain ⟨fields, hfields, hholds⟩ := fields_eq hnode
  obtain ⟨fields', hfields', hcached, hanswer⟩ := h fields v (hholds.parsed fields rfl)
  refine ⟨_, hholds.putFields rfl hfields' hcached, id, ?_⟩
  rw [look_apply, hfields]
  dsimp only
  obtain ⟨a, b, ha, hb, hR⟩ | ⟨e, he, hf⟩ := hanswer
  · rw [ha]
    exact .inl ⟨a, b, rfl, hb, hR⟩
  · rw [he]
    exact .inr ⟨e, rfl, hf⟩

/-- The fields of a node that holds a value hold it too. -/
theorem looks_fields : Looks (Node.fields : Access (Node F) F) Holder.Holds fun v ↦ .ok v := by
  intro node v hnode
  obtain ⟨fields, hfields, hholds⟩ := fields_eq hnode
  exact ⟨_, hholds, id, .inl ⟨fields, v, hfields, rfl, hholds.parsed fields rfl⟩⟩

/-- The bytes of a node are the encoding of the value held, whether they are kept or made. -/
theorem looks_bytes : Looks (Node.bytes : Access (Node F) Bytes) Eq fun v ↦ .ok (wire v) := by
  intro node v hnode
  rw [bytes_apply, hnode.cached?_eq]
  by_cases hcached : node.cached = true
  · rw [if_pos hcached]
    exact ⟨node, hnode, id, .inl ⟨_, _, rfl, rfl, rfl⟩⟩
  · rw [if_neg hcached]
    exact looks_look LawfulLayout.looks_encode node v hnode

omit [LawfulLayout F V] in
theorem settled_of_look_encode [LawfulLayout F V] {after : Node F} {raw : Bytes}
    (h : Node.look Layout.encode node = .ok raw after) : after.Settled := by
  rw [look_apply] at h
  cases hfields : Node.fields node with
  | error e node' => rw [hfields] at h; contradiction
  | ok fields node' =>
    rw [hfields] at h
    dsimp only at h
    cases hencode : Layout.encode fields with
    | error e fields' => rw [hencode] at h; contradiction
    | ok raw' fields' =>
      rw [hencode] at h
      injection h with hraw hafter
      subst hafter
      exact .inr ⟨fields', rfl, LawfulLayout.settled_of_encode hencode⟩

/-- What was not copied was parsed. -/
theorem settled_of_bytes {after : Node F} {raw : Bytes} (h : Node.bytes node = .ok raw after) :
    after.Settled := by
  rw [bytes_apply] at h
  unfold Node.cached? at h
  split at h
  · rename_i copied hcopied
    injection h with hraw hafter
    subst hafter
    left
    by_contra hcached
    simp [hcached] at hcopied
  · exact settled_of_look_encode h

/-- The length told for a node is that of its encoding, though nothing is encoded for it. -/
theorem Holds.length_eq (h : node.Holds v) : node.length = (wire v).length := by
  unfold Node.length Node.current? Node.isParsed
  cases hparsed : node.parsed with
  | none =>
    rw [(h.unparsed hparsed).1]
    simp
  | some fields =>
    cases hcached : node.cached with
    | true => simp [(h.cached hcached).1]
    | false => simpa using LawfulLayout.encodedLength_eq (h.parsed fields hparsed)

omit [Layout F] [LawfulLayout F V] in
theorem Holds.withDigest (h : node.Holds v) :
    Holds { node with digest := some (Hash.double (wire v)) } v := by
  refine ⟨h.parsed, h.unparsed, h.cached, ?_⟩
  rintro _ ⟨⟩
  rfl

omit [Layout F] [LawfulLayout F V] in
/-- Bytes that are up to date are the encoding of the value held. -/
theorem Holds.eq_wire_of_current? (h : node.Holds v) {raw : Bytes}
    (hraw : node.current? = some raw) : raw = wire v := by
  unfold Node.current? at hraw
  split_ifs at hraw with hcurrent
  cases hparsed : node.parsed with
  | none =>
    rw [(h.unparsed hparsed).1] at hraw
    exact (Option.some.inj hraw).symm
  | some fields =>
    have hcached : node.cached = true := by simpa [isParsed, hparsed] using hcurrent
    rw [(h.cached hcached).1] at hraw
    exact (Option.some.inj hraw).symm

/-- The hash of a node is the double hash of the encoding, kept or not. -/
theorem looks_hash :
    Looks (Node.hash : Access (Node F) Hash) Eq fun v ↦ .ok (Hash.double (wire v)) := by
  intro node v hnode
  rw [hash_apply]
  cases hdigest : node.digest with
  | some hash => exact ⟨node, hnode, id, .inl ⟨hash, _, rfl, rfl, hnode.digest hash hdigest⟩⟩
  | none =>
    cases hcurrent : node.current? with
    | some raw =>
      rw [hnode.eq_wire_of_current? hcurrent]
      exact ⟨_, hnode.withDigest, id, .inl ⟨_, _, rfl, rfl, rfl⟩⟩
    | none =>
      obtain ⟨node', hholds, hcached, ⟨raw, _, hraw, hwire, rfl⟩ | ⟨e, -, hf⟩⟩ :=
        looks_look LawfulLayout.looks_encode node v hnode
      · injection hwire with hwire
        rw [hraw, ← hwire]
        exact ⟨_, hholds.withDigest, hcached, .inl ⟨_, _, rfl, rfl, rfl⟩⟩
      · contradiction

/-- Nodes are compared as the values they hold. -/
theorem compares {left right : Node F} {v w : V} (hv : left.Holds v) (hw : right.Holds w) :
    Compares (Node.compare left right) left right v w := by
  obtain ⟨fields, hfields, hleft⟩ := fields_eq hv
  obtain ⟨fields', hfields', hright⟩ := fields_eq hw
  have h := LawfulLayout.compares (hleft.parsed fields rfl) (hright.parsed fields' rfl)
  have hholds := hleft.putFields rfl h.left.1 h.left.2
  have hholds' := hright.putFields rfl h.right.1 h.right.2
  unfold Node.compare
  rw [hfields, hfields']
  exact ⟨h.equal, ⟨hholds, id⟩, ⟨hholds', id⟩⟩

/-! ## Editing -/

omit [Layout F] [LawfulLayout F V] in
/-- Of a stale node nothing is left but its fields. -/
theorem holds_stale {fields : F} (h : Holder.Holds fields v) :
    (node.stale.putFields fields).Holds v := by
  rw [stale_eq]
  refine ⟨?_, ?_, ?_, ?_⟩
  · rintro _ ⟨⟩
    exact h
  · rintro ⟨⟩
  · rintro ⟨⟩
  · rintro _ ⟨⟩

/-- An edit of the fields edits the value. Bytes and hash are dropped, so nothing that is held
speaks of the old value. -/
theorem edits_edit {access : Access F α} {R : α → β → Prop}
    {change : Change V β} (h : Edits access R change) :
    Edits (Node.edit access) R change := by
  intro node v hnode
  obtain ⟨fields, hfields, hholds⟩ := fields_eq hnode
  rw [edit_apply, hfields]
  dsimp only
  obtain ⟨a, fields', b, w, ha, hb, hR, hfields'⟩ | ⟨e, fields', he, hb, hfields'⟩ :=
    h fields v (hholds.parsed fields rfl)
  · rw [ha]
    exact .inl ⟨a, _, b, w, rfl, hb, hR, holds_stale hfields'⟩
  · rw [he]
    exact .inr ⟨e, _, rfl, hb, holds_stale hfields'⟩

/-- Forgetting bytes and hash is an edit that changes nothing. -/
theorem edits_invalidate :
    Edits (Node.invalidate : Access (Node F) Unit) Eq (Change.ask fun _ ↦ .ok ()) :=
  edits_edit (Looks.pure rfl).edits

theorem Holds.invalidate (h : node.Holds v) :
    ∃ node', Node.invalidate node = .ok () node' ∧ node'.Holds v := by
  obtain ⟨_, node', hnode', -, hholds⟩ := edits_invalidate.exists_ok h
  exact ⟨node', hnode', hholds⟩

omit [Layout F] [LawfulLayout F V] in
theorem Holds.settled_fields (h : node.Holds v) (hsettled : node.Settled) {fields : F}
    (hfields : node.parsed = some fields) : Holder.Settled fields := by
  obtain hcached | ⟨fields', hfields', hbelow⟩ := hsettled
  · exact settled_of_cached ((h.cached hcached).2 fields hfields)
  · rw [hfields] at hfields'
    exact Option.some.inj hfields' ▸ hbelow

/-- A settled node can take its encoding, and is cached then with everything below it. -/
theorem Holds.adopt (h : node.Holds v) (hsettled : node.Settled) :
    (node.adopt (wire v)).Holds v := by
  have hbelow {fields' : F} (hfields' : node.parsed.map (Layout.adopt (wire v)) = some fields') :
      Holder.Holds fields' v ∧ Holder.Cached fields' := by
    obtain ⟨fields, hfields, rfl⟩ := Option.map_eq_some_iff.1 hfields'
    exact LawfulLayout.adopt (h.parsed fields hfields) (h.settled_fields hsettled hfields)
  refine ⟨fun _ hfields' ↦ (hbelow hfields').1, ?_, ?_, h.digest⟩
  · intro hparsed
    have hnone : node.parsed = none := Option.map_eq_none_iff.1 hparsed
    obtain hcached | ⟨fields, hfields, -⟩ := hsettled
    · exact ⟨rfl, (h.unparsed hnone).2.1, fun _ ↦ (h.unparsed hnone).2.2 hcached⟩
    · rw [hnone] at hfields
      contradiction
  · intro _
    exact ⟨rfl, fun _ hfields' ↦ (hbelow hfields').2⟩

omit [Plain V] [Holder F V] [LawfulLayout F V] in
theorem cached_adoptIfKept (raw : Bytes) (h : node.cached = true) :
    (node.adoptIfKept raw).cached = true := by
  unfold Node.adoptIfKept
  split_ifs
  · rfl
  · exact h

/-- A node whose bytes are kept may be handed the encoding of its value. -/
theorem Holds.adoptIfKept (h : node.Holds v) (hsettled : node.Settled) :
    (node.adoptIfKept (wire v)).Holds v := by
  unfold Node.adoptIfKept
  split_ifs
  · exact h.adopt hsettled
  · exact h

/-- Serializing answers with the encoding of the value and leaves the value as it was. -/
theorem edits_serialize :
    Edits (Node.serialize : Access (Node F) Bytes) Eq (Change.ask fun v ↦ .ok (wire v)) := by
  intro node v hnode
  rw [serialize_apply, hnode.cached?_eq]
  split_ifs with hcached
  · exact .inl ⟨_, node, _, v, rfl, rfl, rfl, hnode⟩
  · obtain ⟨_, node', hraw, rfl, hholds⟩ :=
      (looks_look LawfulLayout.looks_encode).exists_of_ok hnode rfl
    have hsettled := settled_of_look_encode hraw
    rw [hraw]
    refine .inl ⟨_, _, _, v, rfl, rfl, rfl, ?_⟩
    split_ifs with hretain
    · exact hholds.adopt hsettled
    · exact hholds

/-! ## Lists of nodes -/

omit [Layout F] [LawfulLayout F V] in
/-- What `read_agrees` says of each node of a list. -/
theorem holds_of_read {nodes : List (Node F)} {vs : List V} {config : ParseConfig}
    (h : List.Forall₂ (fun node v ↦ node.Holds v ∧ node.cached = config.retain) nodes vs) :
    Holder.Holds nodes vs ∧ (config.retain = true → Holder.Cached nodes) := by
  induction h with
  | nil => exact ⟨.nil, fun _ ↦ List.forall_mem_nil _⟩
  | cons hhead _ ih =>
    exact ⟨.cons hhead.1 ih.1,
      fun hretain ↦ List.forall_mem_cons.2 ⟨hhead.2.trans hretain, ih.2 hretain⟩⟩

theorem totalLength_eq {nodes : List (Node F)} {vs : List V} (h : Holder.Holds nodes vs) :
    totalLength nodes = (vs.flatMap wire).length := by
  induction h with
  | nil => rfl
  | @cons node v nodes vs hhead htail ih =>
    calc
      totalLength (node :: nodes) = node.length + totalLength nodes := rfl
      _ = (wire v).length + (vs.flatMap wire).length := by rw [Holds.length_eq hhead, ih]
      _ = ((v :: vs).flatMap wire).length := by rw [List.flatMap_cons, List.length_append]

omit [Layout F] [LawfulLayout F V] in
/-- As many nodes as values are counted in as many bytes. -/
theorem drop_ofLength {nodes : List (Node F)} {vs : List V} (h : Holder.Holds nodes vs)
    (rest : Bytes) : (VarInt.ofLength vs ++ rest).drop (VarInt.lengthSize nodes.length) = rest := by
  apply List.drop_left'
  rw [VarInt.length_ofLength, List.Forall₂.length_eq h]

/-- The nodes take up the room of their values' encodings. -/
theorem drop_totalLength {nodes : List (Node F)} {vs : List V} (h : Holder.Holds nodes vs)
    (rest : Bytes) : (vs.flatMap wire ++ rest).drop (totalLength nodes) = rest :=
  List.drop_left' (totalLength_eq h).symm

/-- Nodes take the encodings of their values off the front of `raw`, one after the other. -/
theorem adoptEach_append {nodes : List (Node F)} {vs : List V} (h : Holder.Holds nodes vs)
    (hsettled : Holder.Settled nodes) (rest : Bytes) :
    ∃ nodes', adoptEach (vs.flatMap wire ++ rest) nodes = (nodes', rest) ∧
      Holder.Holds nodes' vs ∧ Holder.Cached nodes' := by
  induction h with
  | nil => exact ⟨[], rfl, .nil, by simp [Holder.Cached]⟩
  | @cons node v nodes vs hhead htail ih =>
    obtain ⟨hsettledHead, hsettledTail⟩ := List.forall_mem_cons.1 hsettled
    obtain ⟨nodes', hnodes', hholds, hcached⟩ := ih hsettledTail
    have hlength := Holds.length_eq hhead
    have htake : (wire v ++ (vs.flatMap wire ++ rest)).take node.length = wire v := by
      rw [hlength, List.take_left']
      rfl
    have hdrop : (wire v ++ (vs.flatMap wire ++ rest)).drop node.length =
        vs.flatMap wire ++ rest := by
      rw [hlength, List.drop_left']
      rfl
    refine ⟨node.adopt (wire v) :: nodes', ?_, .cons (Holds.adopt hhead hsettledHead) hholds, ?_⟩
    · rw [adoptEach, List.flatMap_cons, List.append_assoc, htake, hdrop, hnodes']
    · exact List.forall_mem_cons.2 ⟨rfl, hcached⟩

theorem settled_of_each_bytes {nodes after : List (Node F)} {raws : List Bytes}
    (h : Access.each Node.bytes nodes = .ok raws after) : Holder.Settled after := by
  induction nodes generalizing raws after with
  | nil =>
    injection h with hraws hafter
    subst hafter
    exact List.forall_mem_nil _
  | cons node nodes ih =>
    rw [Access.each_cons] at h
    cases hbytes : Node.bytes node with
    | error e node' => rw [hbytes] at h; contradiction
    | ok raw node' =>
      rw [hbytes] at h
      dsimp only at h
      cases heach : Access.each Node.bytes nodes with
      | error e nodes' => rw [heach] at h; contradiction
      | ok raws' nodes' =>
        rw [heach] at h
        injection h with hraws hafter
        subst hafter
        exact List.forall_mem_cons.2 ⟨settled_of_bytes hbytes, ih heach⟩

end Node

section Lists

variable [Holder σ V] {compare : σ → σ → Compared σ} {lefts rights : List σ} {vs ws : List V}

theorem compares_pairwise
    (h : ∀ {left right v w}, Holds left v → Holds right w →
      Compares (compare left right) left right v w)
    (hv : Holds lefts vs) (hw : Holds rights ws) (hlength : lefts.length = rights.length) :
    Compares (Compared.pairwise compare lefts rights) lefts rights vs ws := by
  induction hv generalizing rights ws with
  | nil =>
    cases hw with
    | nil => exact ⟨iff_of_true rfl rfl, ⟨.nil, id⟩, ⟨.nil, id⟩⟩
    | cons => contradiction
  | @cons left v lefts vs hhead htail ih =>
    cases hw with
    | nil => contradiction
    | @cons right w rights ws hhead' htail' =>
      have hfirst := h hhead hhead'
      have hothers := ih htail' (Nat.succ.inj hlength)
      unfold Compared.pairwise
      by_cases hequal : (compare left right).equal = true
      · rw [if_pos hequal]
        refine ⟨?_, ⟨.cons hfirst.left.1 hothers.left.1, cached_cons hfirst.left.2 hothers.left.2⟩,
          ⟨.cons hfirst.right.1 hothers.right.1, cached_cons hfirst.right.2 hothers.right.2⟩⟩
        rw [List.cons.injEq, ← hfirst.equal, ← hothers.equal]
        exact ⟨fun hrest ↦ ⟨hequal, hrest⟩, And.right⟩
      · rw [if_neg hequal]
        refine ⟨?_, ⟨.cons hfirst.left.1 htail, cached_cons hfirst.left.2 id⟩,
          ⟨.cons hfirst.right.1 htail', cached_cons hfirst.right.2 id⟩⟩
        rw [List.cons.injEq, ← hfirst.equal]
        exact ⟨fun hfalse ↦ absurd hfalse Bool.false_ne_true, fun hboth ↦ absurd hboth.1 hequal⟩

/-- Lists are compared by length and then pair by pair. -/
theorem compares_lists
    (h : ∀ {left right v w}, Holds left v → Holds right w →
      Compares (compare left right) left right v w)
    (hv : Holds lefts vs) (hw : Holds rights ws) :
    Compares (Compared.lists compare lefts rights) lefts rights vs ws := by
  have hlengths : lefts.length = vs.length := List.Forall₂.length_eq hv
  have hlengths' : rights.length = ws.length := List.Forall₂.length_eq hw
  unfold Compared.lists
  split_ifs with hlength
  · exact compares_pairwise h hv hw hlength
  · refine ⟨?_, ⟨hv, id⟩, ⟨hw, id⟩⟩
    constructor
    · exact fun hfalse ↦ absurd hfalse Bool.false_ne_true
    · rintro rfl
      exact absurd (hlengths.trans hlengths'.symm) hlength

end Lists

end CoinWire
