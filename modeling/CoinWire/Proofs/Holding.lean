import Mathlib
import CoinWire.Access
import CoinWire.Proofs.Change

/-!
# States that hold a value

A tree with caches stands for a value without any. What may be asked of such a state is said once
for every kind of state: what it means that it holds a value, that all of it is cached, and that it
is ready to be cached. A look answers what a question to the value answers, and uncaches nothing. An
edit answers what a change of the value answers, and leaves a state that holds the changed value.
-/

namespace CoinWire

/-- States of one kind stand for values of another, whatever is cached in them. -/
class Holder (σ : Type) (V : outParam Type) where
  /-- The state stands for the value, and what is held beside the fields is right for it. -/
  Holds : σ → V → Prop
  /-- Every node in the state is cached. -/
  Cached : σ → Prop
  /-- Every node in the state is cached, or parsed and its fields are settled in turn. -/
  Settled : σ → Prop
  settled_of_cached : ∀ {s}, Cached s → Settled s

open Holder

/-- Fields in which there is nothing to parse stand for themselves. -/
abbrev Holder.plain (V : Type) : Holder V V where
  Holds := Eq
  Cached _ := True
  Settled _ := True
  settled_of_cached h := h

variable {σ τ V W α β γ δ : Type}

instance [Holder σ V] : Holder (List σ) (List V) where
  Holds := List.Forall₂ Holds
  Cached states := ∀ s ∈ states, Cached s
  Settled states := ∀ s ∈ states, Settled s
  settled_of_cached h s hs := settled_of_cached (h s hs)

/-! ## Lists -/

/-- What keeps the head and the tail of a list cached keeps the list cached. -/
theorem Holder.cached_cons [Holder σ V] {s s' : σ} {states states' : List σ}
    (hhead : Cached s → Cached s') (htail : Cached states → Cached states') :
    Cached (s :: states) → Cached (s' :: states') := by
  intro h
  obtain ⟨hs, hstates⟩ := List.forall_mem_cons.1 h
  exact List.forall_mem_cons.2 ⟨hhead hs, htail hstates⟩

section Forall₂

variable {R : α → β → Prop}

/-- Lists that are related element by element have the same indices. -/
theorem forall₂_getElem? {as : List α} {bs : List β} (h : List.Forall₂ R as bs) (index : Nat) :
    (as[index]? = none ∧ bs[index]? = none) ∨
      ∃ a b, as[index]? = some a ∧ bs[index]? = some b ∧ R a b := by
  induction h generalizing index with
  | nil => exact .inl ⟨rfl, rfl⟩
  | cons hab _ ih =>
    cases index with
    | zero => exact .inr ⟨_, _, rfl, rfl, hab⟩
    | succ index => simpa using ih index

theorem forall₂_set {as : List α} {bs : List β} (h : List.Forall₂ R as bs) {a : α} {b : β}
    (hab : R a b) (index : Nat) : List.Forall₂ R (as.set index a) (bs.set index b) := by
  induction h generalizing index with
  | nil => exact .nil
  | cons hhead htail ih =>
    cases index with
    | zero => exact .cons hab htail
    | succ index => exact .cons hhead (ih index)

theorem forall₂_eraseIdx {as : List α} {bs : List β} (h : List.Forall₂ R as bs) (index : Nat) :
    List.Forall₂ R (as.eraseIdx index) (bs.eraseIdx index) := by
  induction h generalizing index with
  | nil => exact .nil
  | cons hhead htail ih =>
    cases index with
    | zero => exact htail
    | succ index => exact .cons hhead (ih index)

/-- A list is related to some list just if each of its elements is related to something. -/
theorem exists_forall₂_iff {as : List α} :
    (∃ bs, List.Forall₂ R as bs) ↔ ∀ a ∈ as, ∃ b, R a b := by
  induction as with
  | nil => exact iff_of_true ⟨[], .nil⟩ (List.forall_mem_nil _)
  | cons a as ih =>
    rw [List.forall_mem_cons, ← ih]
    constructor
    · rintro ⟨_, hab | ⟨hab, hrest⟩⟩
      exact ⟨⟨_, hab⟩, _, hrest⟩
    · rintro ⟨⟨b, hab⟩, bs, hrest⟩
      exact ⟨b :: bs, .cons hab hrest⟩

theorem forall_mem_iff_of_forall₂ {p : α → Prop} {q : β → Prop} {as : List α} {bs : List β}
    (h : List.Forall₂ R as bs) (hR : ∀ a b, R a b → (p a ↔ q b)) :
    (∀ a ∈ as, p a) ↔ ∀ b ∈ bs, q b := by
  induction h with
  | nil => exact iff_of_true (List.forall_mem_nil _) (List.forall_mem_nil _)
  | cons hab _ ih => rw [List.forall_mem_cons, List.forall_mem_cons, hR _ _ hab, ih]

theorem set_eq_self {as : List α} {index : Nat} {a : α} (h : as[index]? = some a) :
    as.set index a = as := by
  obtain ⟨hlt, rfl⟩ := List.getElem?_eq_some_iff.1 h
  exact List.set_getElem_self hlt

end Forall₂

theorem eq_of_rel_eq {a b : Option α} (h : Option.Rel Eq a b) : a = b := by
  cases h with
  | some h => rw [h]
  | none => rfl

/-! ## Looks -/

/-- The access answers what `question` answers of the value that the state holds. The value stays,
and what was cached stays so. -/
def Looks [Holder σ V] (access : Access σ α) (R : α → β → Prop) (question : Question V β) : Prop :=
  ∀ s v, Holds s v → ∃ s', Holds s' v ∧ (Cached s → Cached s') ∧
    ((∃ a b, access s = .ok a s' ∧ question v = .ok b ∧ R a b) ∨
      ∃ e : Absence, access s = .error e.error s' ∧ question v = .error e)

namespace Looks

variable [Holder σ V] [Holder τ W] {access : Access σ α} {R : α → β → Prop}
  {question : Question V β}

theorem congr {question' : Question V β} (h : Looks access R question)
    (heq : ∀ v, question v = question' v) : Looks access R question' := by
  intro s v hs
  rw [← heq v]
  exact h s v hs

theorem pure {a : α} {b : β} (h : R a b) : Looks (pure a : Access σ α) R fun _ ↦ .ok b :=
  fun s _ hs ↦ ⟨s, hs, id, .inl ⟨a, b, rfl, rfl, h⟩⟩

/-- A question that can be answered without parsing. -/
theorem gets (g : σ → α) {f : V → β} (h : ∀ s v, Holds s v → R (g s) (f v)) :
    Looks (do return g (← get) : Access σ α) R fun v ↦ .ok (f v) :=
  fun s v hs ↦ ⟨s, hs, id, .inl ⟨g s, f v, rfl, rfl, h s v hs⟩⟩

theorem get : Looks (get : Access σ σ) Holds fun v ↦ .ok v :=
  gets id fun _ _ hs ↦ hs

/-- The second question is put to the same value as the first. -/
theorem bind {next : α → Access σ γ} {S : γ → δ → Prop} {question' : β → Question V δ}
    (h : Looks access R question) (hnext : ∀ a b, R a b → Looks (next a) S (question' b)) :
    Looks (access >>= next) S fun v ↦ question v >>= fun b ↦ question' b v := by
  intro s v hs
  dsimp only
  rw [Access.bind_apply]
  obtain ⟨s', hs', hcached, ⟨a, b, ha, hb, hR⟩ | ⟨e, he, hf⟩⟩ := h s v hs
  · obtain ⟨s'', hs'', hcached', hanswer⟩ := hnext a b hR s' v hs'
    rw [ha, hb]
    exact ⟨s'', hs'', hcached' ∘ hcached, hanswer⟩
  · rw [he, hf]
    exact ⟨s', hs', hcached, .inr ⟨e, rfl, rfl⟩⟩

/-- `bind` where the first answer is a function of the value. -/
theorem bind_ok {f : V → α} {next : α → Access σ γ} {S : γ → δ → Prop}
    {question : α → Question V δ} (h : Looks access Eq fun v ↦ .ok (f v))
    (hnext : ∀ a, Looks (next a) S (question a)) :
    Looks (access >>= next) S fun v ↦ question (f v) v :=
  h.bind fun a _ hab ↦ hab ▸ hnext a

/-- Answers that are related may be mapped on both sides. -/
theorem answer {S : γ → δ → Prop} {g : α → γ} {k : β → δ} (h : Looks access R question)
    (hgk : ∀ a b, R a b → S (g a) (k b)) :
    Looks (do return g (← access)) S fun v ↦ do return k (← question v) :=
  h.bind fun a b hab ↦ Looks.pure (hgk a b hab)

/-- `answer` where the first answer is a function of the value. -/
theorem answer_ok {f : V → α} (h : Looks access Eq fun v ↦ .ok (f v)) (g : α → γ) :
    Looks (do return g (← access)) Eq fun v ↦ .ok (g (f v)) :=
  h.bind_ok fun _ ↦ Looks.pure rfl

theorem map {S : γ → δ → Prop} {g : α → γ} {k : β → δ} (h : Looks access R question)
    (hgk : ∀ a b, R a b → S (g a) (k b)) :
    Looks (g <$> access) S fun v ↦ k <$> question v := by
  intro s v hs
  dsimp only
  rw [Access.map_apply]
  obtain ⟨s', hs', hcached, ⟨a, b, ha, hb, hR⟩ | ⟨e, he, hf⟩⟩ := h s v hs
  · rw [ha, hb]
    exact ⟨s', hs', hcached, .inl ⟨g a, k b, rfl, rfl, hgk a b hR⟩⟩
  · rw [he, hf]
    exact ⟨s', hs', hcached, .inr ⟨e, rfl, rfl⟩⟩

theorem discard (h : Looks access R question) :
    Looks (discard access) Eq fun v ↦ (fun _ ↦ ()) <$> question v :=
  h.map fun _ _ _ ↦ rfl

/-- A look at a part of the state. -/
theorem focus {get : σ → τ} {set : τ → σ → σ} {part : V → W} {access : Access τ α}
    {question : Question W β} (h : Looks access R question)
    (hget : ∀ s v, Holds s v → Holds (get s) (part v))
    (hset : ∀ s v t, Holds s v → Holds t (part v) → (Cached (get s) → Cached t) →
      Holds (set t s) v ∧ (Cached s → Cached (set t s))) :
    Looks (Access.focus get set access) R fun v ↦ question (part v) := by
  intro s v hs
  unfold Access.focus
  dsimp only
  obtain ⟨t, ht, hcached, hanswer⟩ := h (get s) (part v) (hget s v hs)
  obtain ⟨hholds, hcached'⟩ := hset s v t hs ht hcached
  refine ⟨set t s, hholds, hcached', ?_⟩
  obtain ⟨a, b, ha, hb, hR⟩ | ⟨e, he, hf⟩ := hanswer
  · rw [ha, hb]
    exact .inl ⟨a, b, rfl, rfl, hR⟩
  · rw [he, hf]
    exact .inr ⟨e, rfl, rfl⟩

/-- A question put to every element of a list is put to every value held. -/
theorem each {f : V → α} (h : Looks access Eq fun v ↦ .ok (f v)) :
    Looks (Access.each access) Eq fun vs ↦ .ok (vs.map f) := by
  intro states vs hstates
  induction hstates with
  | nil => exact ⟨[], .nil, id, .inl ⟨[], [], rfl, rfl, rfl⟩⟩
  | @cons s v states vs hs _ ih =>
    obtain ⟨s', hs', hcached, ⟨a, b, ha, hb, rfl⟩ | ⟨e, -, hf⟩⟩ := h s v hs
    · obtain ⟨states', hstates', hcached', ⟨as, bs, has, hbs, rfl⟩ | ⟨e, -, hf⟩⟩ := ih
      · injection hb with hb
        injection hbs with hbs
        refine ⟨s' :: states', .cons hs' hstates', cached_cons hcached hcached',
          .inl ⟨a :: as, _, ?_, rfl, ?_⟩⟩
        · rw [Access.each_cons, ha, has]
        · rw [List.map_cons, hb, hbs]
      · contradiction
    · contradiction

/-- A question at an index is put at the same index of the values held. -/
theorem at? (h : Looks access R question) (index : Nat) :
    Looks (Access.at? index access) (Option.Rel R) (Question.at? index question) := by
  intro states vs hstates
  unfold Access.at? Question.at?
  obtain ⟨hnone, hnone'⟩ | ⟨s, v, hs, hv, hholds⟩ := forall₂_getElem? hstates index
  · rw [hnone, hnone']
    exact ⟨states, hstates, id, .inl ⟨none, none, rfl, rfl, .none⟩⟩
  · obtain ⟨s', hs', hcached, hanswer⟩ := h s v hholds
    have hvs := forall₂_set hstates hs' index
    rw [set_eq_self hv] at hvs
    refine ⟨states.set index s', hvs, ?_, ?_⟩
    · intro hall t ht
      obtain ht | rfl := List.mem_or_eq_of_mem_set ht
      · exact hall t ht
      · exact hcached (hall s (List.mem_of_getElem? hs))
    · rw [hs, hv]
      dsimp only
      rw [Access.map_apply]
      obtain ⟨a, b, ha, hb, hR⟩ | ⟨e, he, hf⟩ := hanswer
      · rw [ha, hb]
        exact .inl ⟨some a, some b, rfl, rfl, .some hR⟩
      · rw [he, hf]
        exact .inr ⟨e, rfl, rfl⟩

/-- A question that the value answers is answered by the access too. -/
theorem exists_of_ok (h : Looks access R question) {s : σ} {v : V} (hs : Holds s v) {b : β}
    (hb : question v = .ok b) : ∃ a s', access s = .ok a s' ∧ R a b ∧ Holds s' v := by
  obtain ⟨s', hs', -, ⟨a, b', ha, hb', hR⟩ | ⟨e, -, hf⟩⟩ := h s v hs
  · obtain rfl : b = b' := Except.ok.inj (hb.symm.trans hb')
    exact ⟨a, s', ha, hR, hs'⟩
  · rw [hb] at hf
    contradiction

/-- A question that every value answers is answered. -/
theorem exists_ok {f : V → β} (h : Looks access R fun v ↦ .ok (f v)) {s : σ} {v : V}
    (hs : Holds s v) : ∃ a s', access s = .ok a s' ∧ R a (f v) := by
  obtain ⟨a, s', ha, hR, -⟩ := h.exists_of_ok hs rfl
  exact ⟨a, s', ha, hR⟩

/-- The access and the question answer alike or fail alike. -/
theorem answer_eq_mapError {question : Question V α} (h : Looks access Eq question) {s : σ} {v : V}
    (hs : Holds s v) : access.answer s = (question v).mapError Absence.error := by
  obtain ⟨s', -, -, ⟨a, _, ha, hb, rfl⟩ | ⟨e, he, hf⟩⟩ := h s v hs
  · rw [Access.answer_eq_ok ha, hb]
    rfl
  · rw [Access.answer_eq_error he, hf]
    rfl

end Looks

/-! ## Edits -/

/-- The access does to the state what `change` does to the value it holds. A change that fails
leaves the value as it was. -/
def Edits [Holder σ V] (access : Access σ α) (R : α → β → Prop)
    (change : Change V β) : Prop :=
  ∀ s v, Holds s v →
    (∃ a s' b v', access s = .ok a s' ∧ change v = .ok (b, v') ∧ R a b ∧ Holds s' v') ∨
      ∃ (e : Absence) (s' : σ), access s = .error e.error s' ∧ change v = .error e ∧ Holds s' v

/-- A look is an edit that changes nothing. -/
theorem Looks.edits [Holder σ V] {access : Access σ α} {R : α → β → Prop}
    {question : Question V β} (h : Looks access R question) :
    Edits access R (Change.ask question) := by
  intro s v hs
  unfold Change.ask
  obtain ⟨s', hs', -, ⟨a, b, ha, hb, hR⟩ | ⟨e, he, hf⟩⟩ := h s v hs
  · rw [ha, hb]
    exact .inl ⟨a, s', b, v, rfl, rfl, hR, hs'⟩
  · rw [he, hf]
    exact .inr ⟨e, s', rfl, rfl, hs'⟩

namespace Edits

variable [Holder σ V] [Holder τ W] {access : Access σ α} {R : α → β → Prop}
  {change : Change V β}

theorem modify {g : σ → σ} {f : V → V} (h : ∀ s v, Holds s v → Holds (g s) (f v)) :
    Edits (modify g : Access σ Unit) Eq (Change.modify f) :=
  fun s v hs ↦ .inl ⟨(), g s, (), f v, rfl, rfl, rfl, h s v hs⟩

theorem answer {S : γ → δ → Prop} {g : α → γ} {k : β → δ} (h : Edits access R change)
    (hgk : ∀ a b, R a b → S (g a) (k b)) :
    Edits (do return g (← access)) S (change.map k) := by
  intro s v hs
  unfold Change.map
  rw [Access.bind_apply]
  obtain ⟨a, s', b, v', ha, hb, hR, hs'⟩ | ⟨e, s', he, hf, hs'⟩ := h s v hs
  · rw [ha, hb]
    exact .inl ⟨g a, s', k b, v', rfl, rfl, hgk a b hR, hs'⟩
  · rw [he, hf]
    exact .inr ⟨e, s', rfl, rfl, hs'⟩

/-- An edit by which the value changes leaves a state that holds the changed value. -/
theorem exists_of_ok (h : Edits access R change) {s : σ} {v w : V} (hs : Holds s v) {b : β}
    (hb : change v = .ok (b, w)) : ∃ a s', access s = .ok a s' ∧ R a b ∧ Holds s' w := by
  obtain ⟨a, s', b', w', ha, hb', hR, hs'⟩ | ⟨e, -, -, hf, -⟩ := h s v hs
  · obtain ⟨rfl, rfl⟩ := Prod.mk.inj (Except.ok.inj (hb.symm.trans hb'))
    exact ⟨a, s', ha, hR, hs'⟩
  · rw [hb] at hf
    contradiction

/-- An edit that always answers and never changes the value leaves a state that holds it. -/
theorem exists_ok {f : V → β} (h : Edits access R (Change.ask fun v ↦ .ok (f v))) {s : σ} {v : V}
    (hs : Holds s v) : ∃ a s', access s = .ok a s' ∧ R a (f v) ∧ Holds s' v :=
  h.exists_of_ok hs rfl

theorem set {s : σ} {v : V} (h : Holds s v) :
    Edits (set s : Access σ Unit) Eq (Change.modify fun _ ↦ v) :=
  fun _ _ _ ↦ .inl ⟨(), s, (), v, rfl, rfl, rfl, h⟩

/-- An edit of a part of the state. -/
theorem focus {get : σ → τ} {set : τ → σ → σ} {part : V → W} {put : W → V → V}
    {access : Access τ α} {change : Change W β} (h : Edits access R change)
    (hget : ∀ s v, Holds s v → Holds (get s) (part v))
    (hset : ∀ s v t w, Holds s v → Holds t w → Holds (set t s) (put w v))
    (hput : ∀ v, put (part v) v = v) :
    Edits (Access.focus get set access) R (change.onPart part put) := by
  intro s v hs
  unfold Access.focus Change.onPart
  obtain ⟨a, t, b, w, ht, hw, hR, hholds⟩ | ⟨e, t, ht, hw, hholds⟩ :=
    h (get s) (part v) (hget s v hs)
  · rw [ht, hw]
    exact .inl ⟨a, set t s, b, put w v, rfl, rfl, hR, hset s v t w hs hholds⟩
  · have hsame := hset s v t _ hs hholds
    rw [hput] at hsame
    rw [ht, hw]
    exact .inr ⟨e, set t s, rfl, rfl, hsame⟩

end Edits

/-! ## Edits of lists -/

/-- An edit at an index is made at the same index of the values held, or fails alike. -/
theorem Edits.atIndex [Holder σ V] {access : Access σ α} {R : α → β → Prop}
    {change : Change V β} (h : Edits access R change) (index : Nat) :
    Edits (Access.atIndex index access) R (change.onIndex index) := by
  intro states vs hstates
  unfold Change.onIndex Access.atIndex
  rw [Access.bind_apply, Access.at?]
  obtain ⟨hnone, hnone'⟩ | ⟨s, v, hs, hv, hholds⟩ := forall₂_getElem? hstates index
  · rw [hnone, hnone', ← List.Forall₂.length_eq hstates]
    exact .inr ⟨.indexOutOfBounds index states.length, states, rfl, rfl, hstates⟩
  · rw [hs, hv]
    dsimp only
    rw [Access.map_apply]
    obtain ⟨a, s', b, v', hs', hv', hR, hholds'⟩ | ⟨e, s', hs', hv', hholds'⟩ := h s v hholds
    · rw [hs', hv']
      exact .inl ⟨a, states.set index s', b, _, rfl, rfl, hR, forall₂_set hstates hholds' index⟩
    · have hvs := forall₂_set hstates hholds' index
      rw [set_eq_self hv] at hvs
      rw [hs', hv']
      exact .inr ⟨e, states.set index s', rfl, rfl, hvs⟩

/-- The element taken out holds the value that is taken out at the same index. -/
theorem edits_detach [Holder σ V] (index : Nat) :
    Edits (Access.detach index : Access (List σ) σ) Holds (Change.detach index) := by
  intro states vs hstates
  unfold Access.detach Change.detach
  obtain ⟨hnone, hnone'⟩ | ⟨s, v, hs, hv, hholds⟩ := forall₂_getElem? hstates index
  · rw [hnone, hnone', ← List.Forall₂.length_eq hstates]
    exact .inr ⟨.indexOutOfBounds index states.length, states, rfl, rfl, hstates⟩
  · rw [hs, hv]
    exact .inl ⟨s, _, v, _, rfl, rfl, hholds, forall₂_eraseIdx hstates index⟩

theorem edits_append [Holder σ V] {s : σ} {v : V} (h : Holds s v) :
    Edits (Access.append s) Eq (Change.modify (· ++ [v])) :=
  Edits.modify fun _ _ hstates ↦ List.rel_append hstates (.cons h .nil)

end CoinWire
