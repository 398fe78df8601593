import Mathlib
import CoinWire.Proofs.Holding.Workbench

/-!
# Caches are invisible

Two workbenches are in step when equal slots hold the same values, one with caches and one without.
Every operation answers the same on both and leaves them in step. Over a run from the empty
workbench, whatever was read under whatever configuration, edited, moved, copied and written, all
answers are those of values that have no caches.
-/

namespace CoinWire

open Holder Workbench

variable {α β γ δ : Type}

/-- The refusal without the numbers of an underrun. -/
def Refusal.kind : Refusal → Refusal
  | .codec e => .codec e.kind
  | refusal => refusal

namespace Workbench

/-- The same slots, with items that hold the plain items. -/
def Holds (bench : Workbench Item) (plain : Workbench PlainItem) : Prop :=
  List.Forall₂ (fun slot slot' ↦ slot.1 = slot'.1 ∧ slot.2.Holds slot'.2) bench.slots plain.slots

variable {bench : Workbench Item} {plain : Workbench PlainItem}

theorem Holds.get? (h : bench.Holds plain) (slot : String) :
    (bench.get? slot = none ∧ plain.get? slot = none) ∨
      ∃ item v, bench.get? slot = some item ∧ plain.get? slot = some v ∧ item.Holds v := by
  obtain ⟨slots⟩ := bench
  obtain ⟨slots'⟩ := plain
  unfold Workbench.get?
  change List.Forall₂ _ slots slots' at h
  induction h with
  | nil => exact .inl ⟨rfl, rfl⟩
  | @cons first first' _ _ hfirst _ ih =>
    obtain ⟨hname, hitem⟩ := hfirst
    obtain ⟨name, item⟩ := first
    obtain ⟨name', v⟩ := first'
    obtain rfl : name = name' := hname
    dsimp only at ih ⊢
    rw [List.lookup_cons, List.lookup_cons]
    cases slot == name with
    | true => exact .inr ⟨item, v, rfl, rfl, hitem⟩
    | false => exact ih

theorem Holds.put (h : bench.Holds plain) (slot : String) {item : Item} {v : PlainItem}
    (hitem : item.Holds v) : (bench.put slot item).Holds (plain.put slot v) := by
  apply List.Forall₂.cons ⟨rfl, hitem⟩
  apply List.rel_filter _ h
  rintro first first' ⟨hname, -⟩
  dsimp only
  rw [hname]

end Workbench

/-! ## Work in step -/

/-- The refusal only says that what the operation names is not there. -/
inductive Refusal.IsAbsence : Refusal → Prop where
  | noSuchSlot : IsAbsence .noSuchSlot
  | noSuchChild : IsAbsence .noSuchChild
  | part (absence : Absence) : IsAbsence (.codec absence.error)

/-- On workbenches in step both works answer related values, or both are refused for want of the
same thing. Either way they leave the workbenches in step. -/
def Mirrors (work : Work Item α) (R : α → β → Prop) (work' : Work PlainItem β) : Prop :=
  ∀ bench plain, bench.Holds plain →
    (∃ a bench' b plain', work bench = .ok a bench' ∧ work' plain = .ok b plain' ∧ R a b ∧
      bench'.Holds plain') ∨
      ∃ refusal bench' plain', work bench = .error refusal bench' ∧
        work' plain = .error refusal plain' ∧ refusal.IsAbsence ∧ bench'.Holds plain'

namespace Mirrors

variable {work : Work Item α} {work' : Work PlainItem β} {R : α → β → Prop}

theorem pure {a : α} {b : β} (h : R a b) : Mirrors (pure a) R (pure b) :=
  fun bench plain hbench ↦ .inl ⟨a, bench, b, plain, rfl, rfl, h, hbench⟩

theorem throw {refusal : Refusal} (h : refusal.IsAbsence) :
    Mirrors (throw refusal : Work Item α) R (throw refusal : Work PlainItem β) :=
  fun bench plain hbench ↦ .inr ⟨refusal, bench, plain, rfl, rfl, h, hbench⟩

theorem bind {next : α → Work Item γ} {next' : β → Work PlainItem δ} {S : γ → δ → Prop}
    (h : Mirrors work R work') (hnext : ∀ a b, R a b → Mirrors (next a) S (next' b)) :
    Mirrors (work >>= next) S (work' >>= next') := by
  intro bench plain hbench
  rw [Access.bind_apply, Access.bind_apply]
  obtain ⟨a, bench', b, plain', ha, hb, hR, hbench'⟩ | ⟨e, bench', plain', he, he', hrest⟩ :=
    h bench plain hbench
  · rw [ha, hb]
    exact hnext a b hR bench' plain' hbench'
  · rw [he, he']
    exact .inr ⟨e, bench', plain', rfl, rfl, hrest⟩

theorem discard (h : Mirrors work R work') : Mirrors (discard work) Eq (discard work') := by
  intro bench plain hbench
  rw [Access.discard_apply, Access.discard_apply]
  obtain ⟨a, bench', b, plain', ha, hb, -, hbench'⟩ | ⟨e, bench', plain', he, he', hrest⟩ :=
    h bench plain hbench
  · rw [ha, hb]
    exact .inl ⟨(), bench', (), plain', rfl, rfl, rfl, hbench'⟩
  · rw [he, he']
    exact .inr ⟨e, bench', plain', rfl, rfl, hrest⟩

/-- A last step that puts an item into a slot. -/
theorem put {item : Item} {v : PlainItem} (h : item.Holds v) (slot : String) :
    Mirrors (do modify (Workbench.put slot item); return .done : Work Item Answer) Eq
      (do modify (Workbench.put slot v); return .done : Work PlainItem Answer) :=
  fun bench plain hbench ↦
    .inl ⟨.done, bench.put slot item, .done, plain.put slot v, rfl, rfl, rfl, hbench.put slot h⟩

theorem onSlot {access : Access Item α} {change : Change PlainItem β}
    (h : Item.Edits access R change) (slot : String) :
    Mirrors (Workbench.onSlot slot access) R
      (Workbench.onSlot slot (Uncached.changing change)) := by
  intro bench plain hbench
  rw [onSlot_apply, onSlot_apply]
  unfold Uncached.changing
  obtain ⟨hnone, hnone'⟩ | ⟨item, v, hitem, hv, hholds⟩ := hbench.get? slot
  · rw [hnone, hnone']
    exact .inr ⟨_, bench, plain, rfl, rfl, .noSuchSlot, hbench⟩
  · rw [hitem, hv]
    dsimp only
    obtain ⟨a, item', b, v', ha, hb, hR, hitem'⟩ | ⟨e, item', he, hf, hitem'⟩ := h item v hholds
    · rw [ha, hb]
      exact .inl ⟨a, _, b, _, rfl, rfl, hR, hbench.put slot hitem'⟩
    · rw [he, hf]
      exact .inr ⟨_, _, _, rfl, rfl, .part e, hbench.put slot hitem'⟩

theorem onChild {access : Access Item (Option α)} {question : Question PlainItem (Option β)}
    (h : Item.Edits access (Option.Rel R) (Change.ask question)) (slot : String) :
    Mirrors (Workbench.onChild slot access) R
      (Workbench.onChild slot (Uncached.asking question)) := by
  have hasking : Uncached.asking question = Uncached.changing (Change.ask question) := by
    funext v
    unfold Uncached.asking Uncached.changing Change.ask
    cases question v <;> rfl
  rw [hasking]
  apply (onSlot h slot).bind
  rintro _ _ (hfound | hnone)
  · exact .pure hfound
  · exact .throw .noSuchChild

theorem look {visit : Visit α} {inquiry : Inquiry β} (h : visit.Asks R inquiry) (place : Place) :
    Mirrors (Workbench.look place visit) R (Uncached.look place inquiry) :=
  onChild (h.look? place) place.slot

theorem reach {visit : Visit α} {alteration : Alteration β} (h : visit.Makes R alteration)
    (place : Place) : Mirrors (Workbench.reach place visit) R (Uncached.reach place alteration) :=
  onSlot (h.reach place) place.slot

theorem answer {g : α → γ} {k : β → δ} {S : γ → δ → Prop} (h : Mirrors work R work')
    (hgk : ∀ a b, R a b → S (g a) (k b)) :
    Mirrors (do return g (← work)) S (do return k (← work')) :=
  h.bind fun a b hab ↦ pure (hgk a b hab)

end Mirrors

/-- The operation puts a new value into a slot. All other operations work on what is there. -/
def Operation.isMake : Operation → Bool
  | .make .. => true
  | _ => false

theorem mirrors_perform (operation : Operation) (h : operation.isMake = false) :
    Mirrors (perform operation) Eq (Uncached.perform operation) := by
  cases operation with
  | make slot source => contradiction
  | copy place target =>
    exact (Mirrors.look Visit.asks_found place).bind fun _ _ h ↦ .put h target
  | copyHeader place target =>
    apply (Mirrors.look Visit.asks_found place).bind
    rintro _ _ (hblock | htransaction | hinput | houtput)
    · exact .put (.block (Block.Holds.headerOnly hblock)) target
    · exact .pure rfl
    · exact .pure rfl
    · exact .pure rfl
  | get place field => exact .look (Visit.asks_get field) place
  | set place assignment => exact .reach (Visit.makes_set assignment) place
  | touch place =>
    exact (Mirrors.reach Visit.asks_found.makes place).discard.bind fun _ _ _ ↦ .pure rfl
  | headerEdit place => exact .reach Visit.makes_headerEdit place
  | report place => exact .look Visit.asks_report place
  | length place =>
    exact (Mirrors.look Visit.asks_length place).answer fun _ _ ↦ congrArg Answer.number
  | ensureParsed place =>
    exact (Mirrors.look Visit.asks_ensureParsed place).bind fun _ _ _ ↦ .pure rfl
  | bytes place =>
    exact (Mirrors.look Visit.asks_bytes place).answer fun _ _ ↦ congrArg Answer.bytes
  | bytesAfter place front =>
    exact (Mirrors.look Visit.asks_bytes place).answer fun _ _ h ↦
      congrArg (fun encoding ↦ Answer.bytes (front ++ encoding)) h
  | invalidate place =>
    exact (Mirrors.reach Visit.makes_invalidate place).bind fun _ _ _ ↦ .pure rfl
  | serialize place =>
    exact (Mirrors.reach Visit.makes_serialize place).answer fun _ _ ↦ congrArg Answer.bytes
  | add place child =>
    exact (Mirrors.look Visit.asks_found child).bind fun _ _ h ↦ .reach (Visit.makes_add h) place
  | remove place children index target =>
    apply (Mirrors.reach (Visit.makes_remove children index) place).bind
    rintro _ _ (hitem | hnone)
    · exact .put hitem target
    · exact .pure rfl
  | clear place children => exact .reach (Visit.makes_clear children) place
  | equal left right =>
    apply (Mirrors.look Visit.asks_found left).bind
    intro a v ha
    apply (Mirrors.look Visit.asks_found right).bind
    intro b w hb
    apply (Mirrors.look (Visit.asks_against hb) left).bind
    rintro answer _ rfl
    exact (Mirrors.look (Visit.asks_against ha) right).discard.bind fun _ _ _ ↦ .pure rfl
  | assign place child =>
    exact (Mirrors.look Visit.asks_found child).bind fun _ _ h ↦ .reach (Visit.makes_put h) place
  | ownership place wallet => exact .look (Visit.asks_ownership wallet) place

/-- One operation keeps the workbenches in step. -/
theorem perform_step (operation : Operation) {bench : Workbench Item}
    {plain : Workbench PlainItem} (h : bench.Holds plain) :
    (∃ answer bench' plain', perform operation bench = .ok answer bench' ∧
      Uncached.perform operation plain = .ok answer plain' ∧ bench'.Holds plain') ∨
      ∃ refusal bench' refusal' plain', perform operation bench = .error refusal bench' ∧
        Uncached.perform operation plain = .error refusal' plain' ∧
          refusal.kind = refusal'.kind ∧ bench'.Holds plain' := by
  by_cases hmake : operation.isMake = true
  · cases operation with
    | make slot source =>
      dsimp only [perform, Uncached.perform]
      obtain ⟨item, v, hitem, hv, hholds⟩ | ⟨e, e', he, he', hkind⟩ := source.make_agrees
      · rw [hitem, hv]
        exact .inl ⟨.done, _, _, rfl, rfl, h.put slot hholds⟩
      · rw [he, he']
        exact .inr ⟨_, _, _, _, rfl, rfl, congrArg Refusal.codec hkind, h⟩
    | _ => contradiction
  · obtain ⟨answer, bench', _, plain', hanswer, hplain, rfl, hholds⟩ |
      ⟨refusal, bench', plain', hrefusal, hplain, -, hholds⟩ :=
      mirrors_perform operation (Bool.eq_false_of_not_eq_true hmake) bench plain h
    · exact .inl ⟨answer, bench', plain', hanswer, hplain, hholds⟩
    · exact .inr ⟨refusal, bench', refusal, plain', hrefusal, hplain, rfl, hholds⟩

/-- A run keeps the workbenches in step, and every answer on the way is the same. -/
theorem run_mirrors (operations : List Operation) {bench : Workbench Item}
    {plain : Workbench PlainItem} (h : bench.Holds plain) :
    (run perform operations bench).1.map (Except.mapError Refusal.kind) =
        (run Uncached.perform operations plain).1.map (Except.mapError Refusal.kind) ∧
      (run perform operations bench).2.Holds (run Uncached.perform operations plain).2 := by
  induction operations generalizing bench plain with
  | nil => exact ⟨rfl, h⟩
  | cons operation operations ih =>
    unfold run
    obtain ⟨answer, bench', plain', hanswer, hplain, hholds⟩ |
      ⟨refusal, bench', refusal', plain', hrefusal, hplain, hkind, hholds⟩ :=
      perform_step operation h
    · obtain ⟨houtcomes, hleft⟩ := ih hholds
      rw [hanswer, hplain]
      exact ⟨congrArg (List.cons _) houtcomes, hleft⟩
    · obtain ⟨houtcomes, hleft⟩ := ih hholds
      rw [hrefusal, hplain]
      refine ⟨?_, hleft⟩
      dsimp only
      rw [List.map_cons, List.map_cons, houtcomes, Except.mapError, hkind]
      rfl

/-- Caches change no answer, and what they hold at the end belongs to the values that are there. -/
theorem answers_eq_uncached (operations : List Operation) :
    (run perform operations empty).1.map (Except.mapError Refusal.kind) =
        (run Uncached.perform operations empty).1.map (Except.mapError Refusal.kind) ∧
      (run perform operations empty).2.Holds (run Uncached.perform operations empty).2 :=
  run_mirrors operations .nil

end CoinWire
