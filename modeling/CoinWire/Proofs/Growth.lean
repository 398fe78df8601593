import Mathlib
import CoinWire.Node
import CoinWire.Proofs.Holding

/-!
# What reading leaves behind

A look at a state may fill in fields that were not parsed yet and remember a hash. It changes no
bytes, no mark of what is cached and no configuration, and what was parsed stays parsed: the state
grows. A look that is after the encoding alone grows the state sparingly: where the encoding is
cached it is copied, so nothing is parsed there or below.

Each look at a node has one law here. That a whole tree grows is known from the laws of its parts.
-/

namespace CoinWire

variable {F σ τ α β : Type}

/-- States of which more may be parsed. -/
class Grown (σ : Type) where
  /-- The second state is the first with more of it parsed. If the growth is sparing, nothing was
  parsed in what is cached. -/
  Grows (sparing : Bool) : σ → σ → Prop
  refl (sparing : Bool) (s : σ) : Grows sparing s s
  trans {sparing : Bool} {s s' s'' : σ} : Grows sparing s s' → Grows sparing s' s'' →
    Grows sparing s s''
  /-- A sparing growth is a growth. -/
  weaken {s s' : σ} {sparing : Bool} : Grows true s s' → Grows sparing s s'

open Grown (Grows)

/-! ## Kinds of states -/

/-- Fields without children are all there once they are. -/
abbrev Grown.ofEq (σ : Type) : Grown σ where
  Grows _ := Eq
  refl _ _ := rfl
  trans := Eq.trans
  weaken := id

section Forall₂

variable {R S : σ → σ → Prop}

theorem forall₂_trans (h : ∀ s s' s'', R s s' → R s' s'' → R s s'') {states states' : List σ}
    (hfirst : List.Forall₂ R states states') :
    ∀ {states''}, List.Forall₂ R states' states'' → List.Forall₂ R states states'' := by
  induction hfirst with
  | nil => exact id
  | cons hs _ ih =>
    rintro _ (_ | ⟨hs', hstates'⟩)
    exact .cons (h _ _ _ hs hs') (ih hstates')

end Forall₂

instance [Grown σ] : Grown (List σ) where
  Grows sparing := List.Forall₂ (Grows sparing)
  refl sparing _ := List.forall₂_same.2 fun s _ ↦ Grown.refl sparing s
  trans {sparing _ _ _} h h' := forall₂_trans (R := Grows sparing) (fun _ _ _ ↦ Grown.trans) h h'
  weaken h := h.imp fun _ _ ↦ Grown.weaken

/-- What stands at an index of a list stands there grown when the list has grown. -/
theorem Grown.exists_getElem? [Grown σ] {sparing : Bool} {states states' : List σ}
    (h : Grows sparing states states') {index : Nat} {s : σ} (hs : states[index]? = some s) :
    ∃ s', states'[index]? = some s' ∧ Grows sparing s s' := by
  obtain ⟨hnone, -⟩ | ⟨t, s', ht, hs', hgrows⟩ := forall₂_getElem? h index
  · rw [hnone] at hs
    contradiction
  · obtain rfl : t = s := Option.some.inj (ht.symm.trans hs)
    exact ⟨s', hs', hgrows⟩

namespace Node

variable [Layout F]

theorem answer_fields_of_parsed {node : Node F} {fields : F} (h : node.parsed = some fields) :
    Node.fields.answer node = .ok fields := by
  unfold Access.answer Node.fields
  rw [h]

/-- What a look at the fields answers is known from the fields, the bytes and the configuration. -/
theorem answer_fields_congr {node node' : Node F} (hparsed : node'.parsed = node.parsed)
    (hraw : node'.raw = node.raw) (hconfig : node'.config = node.config) :
    Access.answer Node.fields node' = Access.answer Node.fields node := by
  obtain ⟨raw, cached, config, parsed, digest⟩ := node
  obtain ⟨raw', cached', config', parsed', digest'⟩ := node'
  obtain rfl : parsed' = parsed := hparsed
  obtain rfl : raw' = raw := hraw
  obtain rfl : config' = config := hconfig
  unfold Access.answer Node.fields
  cases parsed' with
  | some fields => rfl
  | none =>
    cases raw' with
    | none => rfl
    | some raw =>
      dsimp only
      cases (Layout.parse config' : Read F).answer (Reader.ofBytes raw) <;> rfl

/-- What a look at the fields finds was parsed before, or is parsed from the bytes. -/
theorem answer_fields_cases {node : Node F} {found : F}
    (h : Access.answer Node.fields node = .ok found) :
    node.parsed = some found ∨ node.parsed = none ∧ ∃ raw, node.raw = some raw ∧
      (Layout.parse node.config : Read F).answer (Reader.ofBytes raw) = .ok found := by
  obtain ⟨node', h⟩ := Access.answer_eq_ok_iff.1 h
  unfold Node.fields at h
  cases hparsed : node.parsed with
  | some known =>
    rw [hparsed] at h
    injection h with hknown
    exact .inl (congrArg some hknown)
  | none =>
    rw [hparsed] at h
    cases hraw : node.raw with
    | none =>
      rw [hraw] at h
      contradiction
    | some raw =>
      rw [hraw] at h
      dsimp only at h
      cases hparse : (Layout.parse node.config : Read F).answer (Reader.ofBytes raw) with
      | error e =>
        rw [hparse] at h
        contradiction
      | ok parsed =>
        rw [hparse] at h
        injection h with hfound
        exact .inr ⟨rfl, raw, rfl, hparse.trans (congrArg Except.ok hfound)⟩

/-- The fields are those that a look finds, or what became of them. -/
structure Grows [Grown F] (sparing : Bool) (node node' : Node F) : Prop where
  raw : node'.raw = node.raw
  cached : node'.cached = node.cached
  config : node'.config = node.config
  parsed : node'.parsed = node.parsed ∨ (sparing = true → node.cached? = none) ∧
    ∃ fields fields', Access.answer Node.fields node = .ok fields ∧ node'.parsed = some fields' ∧
      Grown.Grows sparing fields fields'

variable [Grown F]

/-- A node that grows keeps its bytes as they are. -/
theorem Grows.cached?_eq {sparing : Bool} {node node' : Node F} (h : node.Grows sparing node') :
    node'.cached? = node.cached? := by
  rw [cached?, cached?, h.cached, h.raw]

/-- What was parsed stays parsed. -/
theorem Grows.isParsed {sparing : Bool} {node node' : Node F} (h : node.Grows sparing node')
    (hparsed : node.isParsed = true) : node'.isParsed = true := by
  unfold Node.isParsed at hparsed ⊢
  obtain hsame | ⟨-, fields, fields', -, hparsed', -⟩ := h.parsed
  · rw [hsame, hparsed]
  · rw [hparsed', Option.isSome_some]

/-- A cached node is parsed no further by a sparing growth, and neither is anything below it. -/
theorem Grows.parsed_eq {node node' : Node F} (h : node.Grows true node') {raw : Bytes}
    (hcached : node.cached? = some raw) : node'.parsed = node.parsed := by
  obtain hsame | ⟨hsparing, -⟩ := h.parsed
  · exact hsame
  · rw [hsparing rfl] at hcached
    contradiction

/-- Fields that were parsed grow. -/
theorem Grows.fields {sparing : Bool} {node node' : Node F} (h : node.Grows sparing node')
    {fields : F} (hparsed : node.parsed = some fields) :
    ∃ fields', node'.parsed = some fields' ∧ Grown.Grows sparing fields fields' := by
  obtain hsame | ⟨-, found, fields', hfound, hparsed', hgrows⟩ := h.parsed
  · exact ⟨fields, hsame.trans hparsed, Grown.refl sparing fields⟩
  · rw [answer_fields_of_parsed hparsed] at hfound
    injection hfound with hfields
    exact ⟨fields', hparsed', hfields ▸ hgrows⟩

/-- Growth in two steps is growth: what the first step parsed, the second one finds. -/
theorem Grows.trans {sparing : Bool} {node node' node'' : Node F} (h : node.Grows sparing node')
    (h' : node'.Grows sparing node'') : node.Grows sparing node'' := by
  refine ⟨h'.raw.trans h.raw, h'.cached.trans h.cached, h'.config.trans h.config, ?_⟩
  obtain hsame' | ⟨hsparing', fields, fields'', hfound', hparsed', hgrows'⟩ := h'.parsed
  · rw [hsame']
    exact h.parsed
  · obtain hsame | ⟨hsparing, found, fields', hfound, hparsed, hgrows⟩ := h.parsed
    · rw [answer_fields_congr hsame h.raw h.config] at hfound'
      rw [h.cached?_eq] at hsparing'
      exact .inr ⟨hsparing', fields, fields'', hfound', hparsed', hgrows'⟩
    · rw [answer_fields_of_parsed hparsed] at hfound'
      injection hfound' with hfields
      subst hfields
      exact .inr ⟨hsparing, found, fields'', hfound, hparsed', Grown.trans hgrows hgrows'⟩

instance : Grown (Node F) where
  Grows := Grows
  refl _ _ := ⟨rfl, rfl, rfl, .inl rfl⟩
  trans := Grows.trans
  weaken {node _ _} h := by
    refine ⟨h.raw, h.cached, h.config, h.parsed.imp_right ?_⟩
    rintro ⟨hsparing, fields, fields', hfound, hparsed, hgrows⟩
    exact ⟨fun _ ↦ hsparing rfl, fields, fields', hfound, hparsed, Grown.weaken hgrows⟩

end Node

/-! ## Accesses under which a state grows -/

/-- Whatever the access answers, the state only grows. -/
def Access.Grows [Grown σ] (sparing : Bool) (access : Access σ α) : Prop :=
  ∀ s, Grown.Grows sparing s (access.after s)

namespace Access

namespace Grows

variable [Grown σ] [Grown τ] {sparing : Bool} {access : Access σ α}

theorem pure (a : α) : (Pure.pure a : Access σ α).Grows sparing :=
  fun s ↦ Grown.refl sparing s

theorem get : (MonadState.get : Access σ σ).Grows sparing :=
  fun s ↦ Grown.refl sparing s

/-- A state that grows twice has grown. -/
theorem bind {next : α → Access σ β} (h : access.Grows sparing)
    (hnext : ∀ a, (next a).Grows sparing) : (access >>= next).Grows sparing := by
  intro s
  have hfirst := h s
  rw [after_bind]
  unfold after at hfirst
  cases hs : access s with
  | error e s' =>
    rw [hs] at hfirst
    exact hfirst
  | ok a s' =>
    rw [hs] at hfirst
    exact Grown.trans hfirst (hnext a s')

theorem map (f : α → β) (h : access.Grows sparing) : (f <$> access).Grows sparing := by
  intro s
  rw [after_map]
  exact h s

theorem discard (h : access.Grows sparing) : (discard access).Grows sparing :=
  h.map _

/-- A look whose answer is made of another's. -/
theorem answer (g : α → β) (h : access.Grows sparing) :
    (do return g (← access) : Access σ β).Grows sparing :=
  h.bind fun a ↦ pure (g a)

/-- The whole grows with its part. -/
theorem focus {get : σ → τ} {set : τ → σ → σ} {access : Access τ α} (h : access.Grows sparing)
    (hset : ∀ s t, Grown.Grows sparing (get s) t → Grown.Grows sparing s (set t s)) :
    (Access.focus get set access).Grows sparing := by
  intro s
  rw [after_focus]
  exact hset s _ (h (get s))

/-- Growth that spares cached nodes is growth. -/
theorem weaken (h : access.Grows true) : access.Grows sparing :=
  fun s ↦ Grown.weaken (h s)

theorem each (h : access.Grows sparing) : (Access.each access).Grows sparing := by
  intro states
  induction states with
  | nil => exact List.Forall₂.nil
  | cons s rest ih =>
    have hs := h s
    unfold after at hs ih ⊢
    rw [each_cons]
    cases hfirst : access s with
    | error e s' =>
      rw [hfirst] at hs
      exact List.Forall₂.cons hs (Grown.refl sparing rest)
    | ok a s' =>
      rw [hfirst] at hs
      cases hrest : Access.each access rest with
      | ok as rest' =>
        rw [hrest] at ih
        exact List.Forall₂.cons hs ih
      | error e rest' =>
        rw [hrest] at ih
        exact List.Forall₂.cons hs ih

end Grows

/-- An access at an index leaves the list with one element in its new state. -/
theorem after_at? (index : Nat) (access : Access σ α) (states : List σ) :
    (at? index access).after states =
      match states[index]? with
      | none => states
      | some s => states.set index (access.after s) := by
  unfold after at?
  cases states[index]? with
  | none => rfl
  | some s =>
    dsimp only
    rw [map_apply]
    cases access s <;> rfl

theorem Grows.at? [Grown σ] {sparing : Bool} {access : Access σ α} (h : access.Grows sparing)
    (index : Nat) : (Access.at? index access).Grows sparing := by
  intro states
  rw [after_at?]
  cases hs : states[index]? with
  | none => exact Grown.refl sparing states
  | some s =>
    have hsame : List.Forall₂ (Grown.Grows sparing) states states := Grown.refl sparing states
    have hset := forall₂_set hsame (h s) index
    rwa [set_eq_self hs] at hset

end Access

/-! ## Nodes -/

/-- Encoding and comparison let the fields grow. -/
class GrownLayout (F : Type) [Layout F] [Grown F] : Prop where
  grows_encode : (Layout.encode : Access F Bytes).Grows true
  grows_compare (left right : F) : Grown.Grows false left (Layout.compare left right).left ∧
    Grown.Grows false right (Layout.compare left right).right

namespace Node

variable [Layout F] [Grown F] {sparing : Bool}

/-- A node grows by putting back grown fields, unless it is cached and to be spared. -/
theorem grows_putFields {node : Node F} {fields fields' : F}
    (hsparing : sparing = true → node.cached? = none)
    (hfields : Node.fields.answer node = .ok fields)
    (h : Grown.Grows sparing fields fields') :
    Grown.Grows sparing node (node.putFields fields') :=
  ⟨rfl, rfl, rfl, .inr ⟨hsparing, fields, fields', hfields, rfl, h⟩⟩

omit [Grown F] in
/-- A failed look at the fields leaves the node as it is. -/
theorem eq_of_fields_error {node node' : Node F} {e : CodecError}
    (h : Node.fields node = .error e node') : node' = node := by
  unfold Node.fields at h
  cases hparsed : node.parsed with
  | some fields =>
    rw [hparsed] at h
    contradiction
  | none =>
    rw [hparsed] at h
    cases hraw : node.raw with
    | none =>
      rw [hraw] at h
      injection h with _ hnode
      exact hnode.symm
    | some raw =>
      rw [hraw] at h
      dsimp only at h
      split at h
      · contradiction
      · injection h with _ hnode
        exact hnode.symm

omit [Grown F] in
/-- A look leaves the fields that were met in the state in which the access left them. -/
theorem after_look (access : Access F α) (node : Node F) :
    (Node.look access).after node =
      match Node.fields node with
      | .ok fields node' => node'.putFields (access.after fields)
      | .error _ node' => node' := by
  unfold Access.after
  rw [look_apply]
  cases Node.fields node with
  | error e node' => rfl
  | ok fields node' =>
    dsimp only
    cases access fields <;> rfl

/-- A look at the fields of a node that is not cached grows it as the fields are grown. -/
theorem grows_look {access : Access F α} (h : access.Grows sparing) (node : Node F)
    (hsparing : sparing = true → node.cached? = none) :
    Grown.Grows sparing node ((Node.look access).after node) := by
  rw [after_look]
  cases hfields : Node.fields node with
  | error e node' =>
    rw [eq_of_fields_error hfields]
    exact Grown.refl sparing node
  | ok fields node' =>
    have hanswer := Access.answer_eq_ok hfields
    obtain rfl := eq_putFields_of_fields hfields
    exact grows_putFields hsparing hanswer (h fields)

theorem look_grows {access : Access F α} (h : access.Grows false) :
    (Node.look access).Grows false :=
  fun node ↦ grows_look h node (by simp)

/-- Parsing adds to a node the fields that its bytes say. -/
theorem fields_grows : (Node.fields : Access (Node F) F).Grows false := by
  intro node
  unfold Access.after
  cases hfields : Node.fields node with
  | error e node' =>
    rw [eq_of_fields_error hfields]
    exact Grown.refl false node
  | ok fields node' =>
    obtain rfl := eq_putFields_of_fields hfields
    exact grows_putFields (by simp) (Access.answer_eq_ok hfields) (Grown.refl false fields)

/-- The hash has no part in how much of a node is parsed. -/
theorem grows_digest {node node' : Node F} (h : Grown.Grows sparing node node')
    (hash : Option Hash) : Grown.Grows sparing node { node' with digest := hash } :=
  ⟨h.raw, h.cached, h.config, h.parsed⟩

variable [GrownLayout F]

/-- Encoding parses no node whose bytes are cached. -/
theorem bytes_grows : (Node.bytes : Access (Node F) Bytes).Grows true := by
  intro node
  unfold Access.after
  rw [bytes_apply]
  cases hcached : node.cached? with
  | some raw => exact Grown.refl true node
  | none => exact grows_look GrownLayout.grows_encode node fun _ ↦ hcached

/-- Hashing parses no node whose bytes are cached. -/
theorem hash_grows : (Node.hash : Access (Node F) Hash).Grows true := by
  intro node
  unfold Access.after
  rw [hash_apply]
  cases node.digest with
  | some hash => exact Grown.refl true node
  | none =>
    cases hcurrent : node.current? with
    | some raw => exact grows_digest (Grown.refl true node) _
    | none =>
      have hcached : node.cached? = none := by
        unfold current? at hcurrent
        unfold cached?
        split_ifs with hmark
        · rwa [hmark, Bool.true_or, if_pos rfl] at hcurrent
        · rfl
      have hgrows := grows_look (α := Bytes) GrownLayout.grows_encode node fun _ ↦ hcached
      unfold Access.after at hgrows
      dsimp only
      cases hlook : Node.look Layout.encode node with
      | ok raw node' =>
        rw [hlook] at hgrows
        exact grows_digest hgrows _
      | error e node' =>
        rw [hlook] at hgrows
        exact hgrows

/-- A comparison may parse nodes on both sides and changes nothing else. -/
theorem compare_grows (left right : Node F) :
    Grown.Grows false left (Node.compare left right).left ∧
      Grown.Grows false right (Node.compare left right).right := by
  have hleft := fields_grows left
  have hright := fields_grows right
  unfold Access.after at hleft hright
  unfold Node.compare
  cases ha : Node.fields left with
  | error e left' =>
    rw [ha] at hleft
    cases hb : Node.fields right with
    | error e right' =>
      rw [hb] at hright
      exact ⟨hleft, hright⟩
    | ok b right' =>
      rw [hb] at hright
      exact ⟨hleft, hright⟩
  | ok a left' =>
    rw [ha] at hleft
    cases hb : Node.fields right with
    | error e right' =>
      rw [hb] at hright
      exact ⟨hleft, hright⟩
    | ok b right' =>
      obtain ⟨hfields, hfields'⟩ := GrownLayout.grows_compare a b
      have hanswer := Access.answer_eq_ok ha
      have hanswer' := Access.answer_eq_ok hb
      obtain rfl := eq_putFields_of_fields ha
      obtain rfl := eq_putFields_of_fields hb
      exact ⟨grows_putFields (by simp) hanswer hfields, grows_putFields (by simp) hanswer' hfields'⟩

end Node

/-! ## Comparisons of lists -/

namespace Compared

variable [Grown σ] {compare : σ → σ → Compared σ}

theorem pairwise_grows
    (h : ∀ left right, Grows false left (compare left right).left ∧
      Grows false right (compare left right).right) (lefts rights : List σ) :
    Grows false lefts (pairwise compare lefts rights).left ∧
      Grows false rights (pairwise compare lefts rights).right := by
  induction lefts generalizing rights with
  | nil => exact ⟨Grown.refl false _, Grown.refl false _⟩
  | cons left lefts ih =>
    cases rights with
    | nil => exact ⟨Grown.refl false _, Grown.refl false _⟩
    | cons right rights =>
      obtain ⟨hleft, hright⟩ := h left right
      obtain ⟨hlefts, hrights⟩ := ih rights
      rw [pairwise]
      dsimp only
      split_ifs
      · exact ⟨List.Forall₂.cons hleft hlefts, List.Forall₂.cons hright hrights⟩
      · exact ⟨List.Forall₂.cons hleft (Grown.refl false lefts),
          List.Forall₂.cons hright (Grown.refl false rights)⟩

/-- Lists of unequal lengths are told apart without a look at what is in them. -/
theorem lists_grows
    (h : ∀ left right, Grows false left (compare left right).left ∧
      Grows false right (compare left right).right) (lefts rights : List σ) :
    Grows false lefts (lists compare lefts rights).left ∧
      Grows false rights (lists compare lefts rights).right := by
  unfold lists
  split_ifs
  · exact pairwise_grows h lefts rights
  · exact ⟨Grown.refl false _, Grown.refl false _⟩

end Compared

end CoinWire
