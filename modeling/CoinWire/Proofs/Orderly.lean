import Mathlib
import CoinWire.Proofs.Growth.Item

/-!
# Trees in order

A node that is not parsed was read lazily, so its configuration says so, and the children that come
out of it will not be parsed either. Header and body of a block are under one configuration. Every
operation keeps trees in order: a look lets them grow, an edit changes what is parsed already, and
no operation changes a configuration.
-/

namespace CoinWire

variable {F σ τ ε α β : Type}

/-! ## What programs keep -/

/-- The invariant holds of the state that is left, and the answer, if there is one, satisfies
`P`. -/
def Kept (I : σ → Prop) (P : α → Prop) : EStateM.Result ε σ α → Prop
  | .ok a s => I s ∧ P a
  | .error _ s => I s

/-- The program keeps the invariant, whatever its outcome, and its answers satisfy `P`. -/
def Keeps (I : σ → Prop) (program : EStateM ε σ α) (P : α → Prop) : Prop :=
  ∀ s, I s → Kept I P (program s)

theorem Kept.mono {I J : σ → Prop} {P Q : α → Prop} {outcome : EStateM.Result ε σ α}
    (h : Kept I P outcome) (hI : ∀ s, I s → J s) (hP : ∀ a, P a → Q a) : Kept J Q outcome := by
  cases outcome with
  | ok a s => exact ⟨hI s h.1, hP a h.2⟩
  | error e s => exact hI s h

/-- What is kept of a part is kept of the whole it is wrapped into. -/
theorem Kept.mapState {I : σ → Prop} {J : τ → Prop} {P : α → Prop}
    {outcome : EStateM.Result CodecError σ α} (h : Kept I P outcome) {wrap : σ → τ}
    (hwrap : ∀ s, I s → J (wrap s)) : Kept J P (Access.mapState wrap outcome) := by
  cases outcome with
  | ok a s => exact ⟨hwrap s h.1, h.2⟩
  | error e s => exact hwrap s h

namespace Keeps

variable {I : σ → Prop} {J : τ → Prop} {program : EStateM ε σ α} {P : α → Prop} {Q : β → Prop}

theorem after {access : Access σ α} (h : Keeps I access P) {s : σ} (hs : I s) :
    I (access.after s) := by
  have hkept := h s hs
  unfold Access.after
  cases hrun : access s with
  | ok a s' =>
    rw [hrun] at hkept
    exact hkept.1
  | error e s' =>
    rw [hrun] at hkept
    exact hkept

theorem pure {a : α} (h : P a) : Keeps I (pure a : EStateM ε σ α) P :=
  fun _ hs ↦ ⟨hs, h⟩

theorem throw (e : ε) : Keeps I (throw e : EStateM ε σ α) P :=
  fun _ hs ↦ hs

theorem get : Keeps I (get : EStateM ε σ σ) I :=
  fun _ hs ↦ ⟨hs, hs⟩

theorem set {s : σ} (h : I s) : Keeps I (set s : EStateM ε σ Unit) fun _ ↦ True :=
  fun _ _ ↦ ⟨h, trivial⟩

theorem modify {f : σ → σ} (h : ∀ s, I s → I (f s)) :
    Keeps I (modify f : EStateM ε σ Unit) fun _ ↦ True :=
  fun s hs ↦ ⟨h s hs, trivial⟩

/-- The second program starts from a state that the first one kept, with an answer of which `P`
holds. -/
theorem bind {next : α → EStateM ε σ β} (h : Keeps I program P)
    (hnext : ∀ a, P a → Keeps I (next a) Q) : Keeps I (program >>= next) Q := by
  intro s hs
  have hkept := h s hs
  rw [Access.bind_apply]
  cases hrun : program s with
  | ok a s' =>
    rw [hrun] at hkept
    exact hnext a hkept.2 s' hkept.1
  | error e s' =>
    rw [hrun] at hkept
    exact hkept

theorem answer {g : α → β} (h : Keeps I program P) (hg : ∀ a, P a → Q (g a)) :
    Keeps I (do return g (← program)) Q :=
  h.bind fun a ha ↦ pure (hg a ha)

theorem map {g : α → β} (h : Keeps I program P) (hg : ∀ a, P a → Q (g a)) :
    Keeps I (g <$> program) Q := by
  intro s hs
  have hkept := h s hs
  rw [Access.map_apply]
  cases hrun : program s with
  | ok a s' =>
    rw [hrun] at hkept
    exact ⟨hkept.1, hg a hkept.2⟩
  | error e s' =>
    rw [hrun] at hkept
    exact hkept

theorem discard (h : Keeps I program P) : Keeps I (discard program) fun _ ↦ True :=
  h.map fun _ _ ↦ trivial

end Keeps

/-! ## Parts and lists -/

namespace Keeps

variable {I : σ → Prop} {J : τ → Prop} {P : α → Prop}

/-- To keep the whole it is enough to keep the part, if any kept part may be put back. -/
theorem focus {get : σ → τ} {set : τ → σ → σ} {access : Access τ α} (h : Keeps J access P)
    (hget : ∀ s, I s → J (get s)) (hset : ∀ s t, I s → J t → I (set t s)) :
    Keeps I (Access.focus get set access) P :=
  fun s hs ↦ (h (get s) (hget s hs)).mapState fun t ↦ hset s t hs

variable {access : Access σ α}

/-- At an index, one element is met and the others stay. -/
theorem at? (h : Keeps I access P) (index : Nat) :
    Keeps (fun states ↦ ∀ s ∈ states, I s) (Access.at? index access)
      fun found ↦ ∀ a, found = some a → P a := by
  intro states hstates
  unfold Access.at?
  cases hs : states[index]? with
  | none => exact ⟨hstates, nofun⟩
  | some s =>
    have hkept := h s (hstates s (List.mem_of_getElem? hs))
    have hset (s' : σ) (hs' : I s') : ∀ t ∈ states.set index s', I t := by
      intro t ht
      obtain ht | rfl := List.mem_or_eq_of_mem_set ht
      · exact hstates t ht
      · exact hs'
    dsimp only
    rw [Access.map_apply]
    cases hrun : access s with
    | ok a s' =>
      rw [hrun] at hkept
      exact ⟨hset s' hkept.1, fun b hb ↦ Option.some.inj hb ▸ hkept.2⟩
    | error e s' =>
      rw [hrun] at hkept
      exact hset s' hkept

theorem atIndex (h : Keeps I access P) (index : Nat) :
    Keeps (fun states ↦ ∀ s ∈ states, I s) (Access.atIndex index access) P := by
  apply (h.at? index).bind
  rintro (_ | a) ha
  · exact get.bind fun _ _ ↦ throw _
  · exact pure (ha a rfl)

/-- The element taken out of the list is one that was kept. -/
theorem detach (index : Nat) :
    Keeps (fun states : List σ ↦ ∀ s ∈ states, I s) (Access.detach index) I := by
  intro states hstates
  unfold Access.detach
  cases hs : states[index]? with
  | none => exact hstates
  | some s =>
    exact ⟨fun t ht ↦ hstates t (List.mem_of_mem_eraseIdx ht),
      hstates s (List.mem_of_getElem? hs)⟩

theorem append {s : σ} (h : I s) :
    Keeps (fun states ↦ ∀ s ∈ states, I s) (Access.append s) fun _ ↦ True :=
  modify fun _ hstates ↦ List.forall_mem_append.2 ⟨hstates, List.forall_mem_singleton.2 h⟩

end Keeps

/-! ## What is read -/

/-- Whatever is read satisfies `P`. -/
def Read.Yields (read : Read α) (P : α → Prop) : Prop :=
  ∀ reader a after, read reader = .ok a after → P a

namespace Read.Yields

variable {read : Read α} {P : α → Prop} {Q : β → Prop}

/-- Nothing is said of what is read. -/
theorem any (read : Read α) : read.Yields fun _ ↦ True :=
  fun _ _ _ _ ↦ trivial

theorem mono (h : read.Yields P) {P' : α → Prop} (hP : ∀ a, P a → P' a) : read.Yields P' :=
  fun reader a after ha ↦ hP a (h reader a after ha)

theorem pure {a : α} (h : P a) : Read.Yields (pure a) P := by
  rintro reader b after ⟨⟩
  exact h

theorem bind {next : α → Read β} (h : read.Yields P) (hnext : ∀ a, P a → (next a).Yields Q) :
    (read >>= next).Yields Q := by
  intro reader b after hb
  obtain ⟨a, middle, ha, hb⟩ := Access.bind_eq_ok_iff.1 hb
  exact hnext a (h reader a middle ha) middle b after hb

/-- Every element of a repetition is read in the same way. -/
theorem times (h : read.Yields P) (count : Nat) :
    (Read.times count read).Yields fun found ↦ ∀ a ∈ found, P a := by
  induction count with
  | zero =>
    rintro reader _ after ⟨⟩
    exact List.forall_mem_nil _
  | succ count ih =>
    intro reader found after hfound
    rw [times_succ] at hfound
    cases ha : read reader with
    | error e middle =>
      rw [ha] at hfound
      contradiction
    | ok a middle =>
      rw [ha] at hfound
      dsimp only at hfound
      cases hrest : Read.times count read middle with
      | error e middle' =>
        rw [hrest] at hfound
        contradiction
      | ok rest middle' =>
        rw [hrest] at hfound
        injection hfound with hfound
        rw [← hfound]
        exact List.forall_mem_cons.2 ⟨h reader a middle ha, ih middle rest middle' hrest⟩

/-- Every element of a counted list is read in the same way. -/
theorem counted (h : read.Yields P) (minSize : Nat) (what : String) :
    (Read.counted minSize what read).Yields fun found ↦ ∀ a ∈ found, P a :=
  (any _).bind fun count _ ↦ h.times count

theorem answer (h : read.Yields P) {reader : Reader} {a : α} (ha : read.answer reader = .ok a) :
    P a := by
  obtain ⟨after, hread⟩ := Access.answer_eq_ok_iff.1 ha
  exact h reader a after hread

end Read.Yields

/-! ## Order -/

/-- States that can be in order. They stay so while they grow. -/
class Ordered (σ : Type) [Grown σ] where
  Orderly : σ → Prop
  grows {s s' : σ} : Grown.Grows false s s' → Orderly s → Orderly s'

open Ordered (Orderly)

/-- A look keeps what it looks at in order. -/
theorem Access.Grows.keeps [Grown σ] [Ordered σ] {access : Access σ α} (h : access.Grows false) :
    Keeps Orderly access fun _ ↦ True := by
  intro s hs
  have hgrows := h s
  unfold Access.after at hgrows
  cases hrun : access s with
  | ok a s' =>
    rw [hrun] at hgrows
    exact ⟨Ordered.grows hgrows hs, trivial⟩
  | error e s' =>
    rw [hrun] at hgrows
    exact Ordered.grows hgrows hs

instance [Grown σ] [Ordered σ] : Ordered (List σ) where
  Orderly states := ∀ s ∈ states, Orderly s
  grows {states states'} h := by
    have hgrows : List.Forall₂ (Grown.Grows false) states states' := h
    induction hgrows with
    | nil => exact id
    | cons hs hrest ih =>
      rw [List.forall_mem_cons, List.forall_mem_cons]
      exact And.imp (Ordered.grows hs) (ih hrest)

/-- Fields read from bytes are in order, and an encoding that is handed down does not change
that. -/
class OrderedLayout (F : Type) [Layout F] [Grown F] [Ordered F] : Prop where
  yields_parse (config : ParseConfig) : (Layout.parse config : Read F).Yields Orderly
  orderly_adopt (raw : Bytes) (fields : F) : Orderly fields → Orderly (Layout.adopt raw fields)

namespace Node

variable [Layout F] [Grown F] [Ordered F]

/-- The fields are in order if they are parsed. If not, they are to be parsed later. -/
structure Orderly (node : Node F) : Prop where
  /-- What is not parsed was read lazily. -/
  deferred : node.parsed = none → node.config.lazy = true
  fields : ∀ fields, node.parsed = some fields → Ordered.Orderly fields

/-- The node is in order, and its configuration is known. -/
def OrderlyUnder (config : ParseConfig) (node : Node F) : Prop :=
  node.Orderly ∧ node.config = config

variable [OrderedLayout F]

/-- The fields that an access meets are in order, whether they were parsed before or just now. -/
theorem Orderly.of_fields {node : Node F} (h : node.Orderly) {found : F}
    (hfound : Access.answer Node.fields node = .ok found) : Ordered.Orderly found := by
  obtain hparsed | ⟨-, raw, -, hparse⟩ := answer_fields_cases hfound
  · exact h.fields found hparsed
  · exact (OrderedLayout.yields_parse node.config).answer hparse

instance : Ordered (Node F) where
  Orderly := Orderly
  grows {node node'} h horderly := by
    have hgrows : node.Grows false node' := h
    obtain hsame | ⟨-, fields, fields', hfields, hparsed, hgrown⟩ := hgrows.parsed
    · constructor
      · intro hnone
        rw [hgrows.config]
        exact horderly.deferred (hsame ▸ hnone)
      · intro fields hsome
        exact horderly.fields fields (hsame ▸ hsome)
    · constructor
      · intro hnone
        rw [hparsed] at hnone
        contradiction
      · intro fields'' hsome
        rw [hparsed] at hsome
        exact Option.some.inj hsome ▸ Ordered.grows hgrown (horderly.of_fields hfields)

omit [Layout F] [OrderedLayout F] in
/-- A node is as much in order as the fields put into it. -/
theorem Orderly.putFields {node : Node F} {fields : F} (h : Ordered.Orderly fields) :
    (node.putFields fields).Orderly :=
  ⟨nofun, fun _ hsome ↦ Option.some.inj hsome ▸ h⟩

/-- A program that works on the fields of a node and puts them back into the node, which it may
`prepare` for them. -/
theorem keeps_of_fields {access : Access F α} {P : α → Prop} (h : Keeps Ordered.Orderly access P)
    {program : Access (Node F) α} {prepare : Node F → Node F}
    (hconfig : ∀ node, (prepare node).config = node.config)
    (hrun : ∀ node, program node =
      match Node.fields node with
      | .ok fields node' => Access.mapState (prepare node').putFields (access fields)
      | .error e node' => .error e node')
    (config : ParseConfig) : Keeps (OrderlyUnder config) program P := by
  intro node hnode
  rw [hrun]
  cases hfields : Node.fields node with
  | error e node' =>
    rw [eq_of_fields_error hfields]
    exact hnode
  | ok fields node' =>
    have hkept := h fields (hnode.1.of_fields (Access.answer_eq_ok hfields))
    have hsame : node'.config = node.config := by
      rw [eq_putFields_of_fields hfields]
      rfl
    have hnode' : (prepare node').config = config := (hconfig node').trans (hsame.trans hnode.2)
    exact hkept.mapState fun fields' hfields' ↦ ⟨.putFields hfields', hnode'⟩

/-- A look that may answer with parts of what it looks at. -/
theorem keeps_look {access : Access F α} {P : α → Prop} (h : Keeps Ordered.Orderly access P)
    (config : ParseConfig) : Keeps (OrderlyUnder config) (Node.look access) P :=
  keeps_of_fields h (fun _ ↦ rfl) (look_apply access) config

/-- An edit works on fields that are parsed by then. -/
theorem keeps_edit {access : Access F α} {P : α → Prop} (h : Keeps Ordered.Orderly access P)
    (config : ParseConfig) : Keeps (OrderlyUnder config) (Node.edit access) P :=
  keeps_of_fields h (fun node ↦ by rw [stale_eq]) (edit_apply access) config

/-- A look changes no configuration. -/
theorem keeps_of_grows {access : Access (Node F) α}
    (h : access.Grows false) (config : ParseConfig) :
    Keeps (OrderlyUnder config) access fun _ ↦ True := by
  intro node hnode
  have hgrows := h node
  unfold Access.after at hgrows
  cases hrun : access node with
  | ok a node' =>
    rw [hrun] at hgrows
    exact ⟨⟨Ordered.grows hgrows hnode.1, hgrows.config.trans hnode.2⟩, trivial⟩
  | error e node' =>
    rw [hrun] at hgrows
    exact ⟨Ordered.grows hgrows hnode.1, hgrows.config.trans hnode.2⟩

/-- What keeps the order under every configuration keeps it. -/
theorem keeps_orderly {access : Access (Node F) α} {P : α → Prop}
    (h : ∀ config, Keeps (OrderlyUnder config) access P) : Keeps Ordered.Orderly access P :=
  fun node hnode ↦ (h node.config node ⟨hnode, rfl⟩).mono (fun _ ↦ And.left) fun _ ↦ id

/-- The node was read under the configuration. Its fields wait if that says so. -/
structure ReadUnder (config : ParseConfig) (node : Node F) : Prop where
  orderly : node.OrderlyUnder config
  unparsed : config.lazy = true → node.parsed = none

/-- A node that was read is under the configuration it was read with, and unparsed if that is lazy.
-/
theorem yields_read (config : ParseConfig) :
    (Node.read config : Read (Node F)).Yields (ReadUnder config) := by
  intro reader node after hnode
  cases hlazy : config.lazy with
  | true =>
    rw [read_lazy hlazy] at hnode
    cases hscan : Layout.scan F reader with
    | error e middle =>
      rw [hscan] at hnode
      contradiction
    | ok _ middle =>
      rw [hscan] at hnode
      injection hnode with hnode
      subst hnode
      exact ⟨⟨⟨fun _ ↦ hlazy, nofun⟩, rfl⟩, fun _ ↦ rfl⟩
  | false =>
    rw [read_eager hlazy] at hnode
    cases hparse : (Layout.parse config : Read F) reader with
    | error e middle =>
      rw [hparse] at hnode
      contradiction
    | ok fields middle =>
      rw [hparse] at hnode
      injection hnode with hnode
      subst hnode
      have hfields := OrderedLayout.yields_parse config reader fields middle hparse
      refine ⟨⟨⟨nofun, fun _ hsome ↦ Option.some.inj hsome ▸ hfields⟩, rfl⟩, fun htrue ↦ ?_⟩
      rw [hlazy] at htrue
      contradiction

omit [Layout F] [OrderedLayout F] in
theorem orderly_ofFields {fields : F} (h : Ordered.Orderly fields) (config : ParseConfig) :
    (Node.ofFields fields config).OrderlyUnder config :=
  ⟨⟨nofun, fun _ hsome ↦ Option.some.inj hsome ▸ h⟩, rfl⟩

/-- A node that adopts bytes passes them on to its children, which stay in order. -/
theorem OrderlyUnder.adopt {node : Node F} {config : ParseConfig} (h : node.OrderlyUnder config)
    (raw : Bytes) : (node.adopt raw).OrderlyUnder config := by
  refine ⟨⟨fun hnone ↦ h.1.deferred (Option.map_eq_none_iff.1 hnone), ?_⟩, h.2⟩
  intro fields hsome
  obtain ⟨known, hknown, rfl⟩ := Option.map_eq_some_iff.1 hsome
  exact OrderedLayout.orderly_adopt raw known (h.1.fields known hknown)

theorem OrderlyUnder.adoptIfKept {node : Node F} {config : ParseConfig}
    (h : node.OrderlyUnder config) (raw : Bytes) : (node.adoptIfKept raw).OrderlyUnder config := by
  unfold Node.adoptIfKept
  split_ifs
  · exact h.adopt raw
  · exact h

/-- Adopting bytes one after another keeps every node of a list in order. -/
theorem orderly_adoptEach (raw : Bytes) {nodes : List (Node F)} (h : ∀ node ∈ nodes, node.Orderly) :
    ∀ node ∈ (adoptEach raw nodes).1, node.Orderly := by
  induction nodes generalizing raw with
  | nil => exact List.forall_mem_nil _
  | cons node rest ih =>
    obtain ⟨hnode, hrest⟩ := List.forall_mem_cons.1 h
    have hadopt := OrderlyUnder.adopt ⟨hnode, rfl⟩ (raw.take node.length)
    exact List.forall_mem_cons.2 ⟨hadopt.1, ih (raw.drop node.length) hrest⟩

variable [GrownLayout F]

/-- Serializing keeps the order, also where the bytes are cached. -/
theorem keeps_serialize (config : ParseConfig) :
    Keeps (OrderlyUnder config) (Node.serialize : Access (Node F) Bytes) fun _ ↦ True := by
  intro node hnode
  rw [serialize_apply]
  cases node.cached? with
  | some raw => exact ⟨hnode, trivial⟩
  | none =>
    have hlook := keeps_of_grows (look_grows (GrownLayout.grows_encode (F := F)).weaken) config
      node hnode
    dsimp only
    cases hrun : (Node.look Layout.encode : Access (Node F) Bytes) node with
    | error e node' =>
      rw [hrun] at hlook
      exact hlook
    | ok raw node' =>
      rw [hrun] at hlook
      dsimp only
      split_ifs
      · exact ⟨hlook.1.adopt raw, trivial⟩
      · exact hlook

end Node

end CoinWire
