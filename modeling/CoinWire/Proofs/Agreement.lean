import Mathlib
import CoinWire.Proofs.Reading

/-!
# Reads that agree

Two reads agree when on every byte string both succeed, with related answers and the cursor at
one place, or both fail for one kind of reason. Moving over a value, reading it and making nodes
of it differ in how they group their steps, so an underrun names other numbers; nothing else in an
outcome differs.
-/

namespace CoinWire

/-- The error without the numbers of an underrun, which tell how a read was divided. -/
def CodecError.kind : CodecError → CodecError
  | .underrun _ _ => .underrun 0 0
  | e => e

namespace Read

variable {α β γ δ : Type}

/-- On every byte string both reads succeed, with answers related by `R`, or both fail. -/
def Agrees (read : Read α) (read' : Read β) (R : α → β → Prop) : Prop :=
  ∀ reader,
    (∃ a b after, read reader = .ok a after ∧ read' reader = .ok b after ∧ R a b) ∨
      ∃ e e' after after', read reader = .error e after ∧ read' reader = .error e' after' ∧
        e.kind = e'.kind

namespace Agrees

variable {read : Read α} {read' : Read β} {R S : α → β → Prop}

/-- Every read agrees with itself. -/
theorem refl (read : Read α) : Agrees read read Eq := by
  intro reader
  cases read reader with
  | ok a after => exact .inl ⟨a, a, after, rfl, rfl, rfl⟩
  | error e after => exact .inr ⟨e, e, after, after, rfl, rfl, rfl⟩

theorem mono (h : Agrees read read' R) (hRS : ∀ a b, R a b → S a b) : Agrees read read' S := by
  intro reader
  obtain ⟨a, b, after, ha, hb, hR⟩ | ⟨e, e', after, after', he, he', hkind⟩ := h reader
  · exact .inl ⟨a, b, after, ha, hb, hRS a b hR⟩
  · exact .inr ⟨e, e', after, after', he, he', hkind⟩

theorem pure {a : α} {b : β} (h : R a b) : Agrees (pure a) (pure b) R :=
  fun reader ↦ .inl ⟨a, b, reader, rfl, rfl, h⟩

/-- Reads that agree leave their cursors at the same byte, so what follows them can agree too. -/
theorem bind {next : α → Read γ} {next' : β → Read δ} {S : γ → δ → Prop}
    (h : Agrees read read' R) (hnext : ∀ a b, R a b → Agrees (next a) (next' b) S) :
    Agrees (read >>= next) (read' >>= next') S := by
  intro reader
  rw [Access.bind_apply, Access.bind_apply]
  obtain ⟨a, b, after, ha, hb, hR⟩ | ⟨e, e', after, after', he, he', hkind⟩ := h reader
  · rw [ha, hb]
    exact hnext a b hR after
  · rw [he, he']
    exact .inr ⟨e, e', after, after', rfl, rfl, hkind⟩

/-- Of one byte string both reads make related values, or neither makes any. -/
theorem answer (h : Agrees read read' R) (reader : Reader) :
    (∃ a b, read.answer reader = .ok a ∧ read'.answer reader = .ok b ∧ R a b) ∨
      ∃ e e', read.answer reader = .error e ∧ read'.answer reader = .error e' ∧
        e.kind = e'.kind := by
  unfold Access.answer
  obtain ⟨a, b, after, ha, hb, hR⟩ | ⟨e, e', after, after', he, he', hkind⟩ := h reader
  · rw [ha, hb]
    exact .inl ⟨a, b, rfl, rfl, hR⟩
  · rw [he, he']
    exact .inr ⟨e, e', rfl, rfl, hkind⟩

/-- The left answer may be changed to one that is related too. -/
theorem answer_left {f : α → γ} {S : γ → β → Prop} (h : Agrees read read' R)
    (hf : ∀ a b, R a b → S (f a) b) : Agrees (do return f (← read)) read' S := by
  rw [← bind_pure read']
  exact h.bind fun a b hab ↦ pure (hf a b hab)

/-- A read whose answer is dropped agrees as before. -/
theorem discard_left (h : Agrees read read' R) : Agrees (discard read) read' fun _ _ ↦ True := by
  intro reader
  rw [Access.discard_apply]
  obtain ⟨a, b, after, ha, hb, hR⟩ | ⟨e, e', after, after', he, he', hkind⟩ := h reader
  · rw [ha, hb]
    exact .inl ⟨(), b, after, rfl, rfl, trivial⟩
  · rw [he, he']
    exact .inr ⟨e, e', after, after', rfl, rfl, hkind⟩

/-- Repetitions of reads that agree find lists that are related element by element. -/
theorem times (h : Agrees read read' R) (count : Nat) :
    Agrees (times count read) (times count read') (List.Forall₂ R) := by
  induction count with
  | zero => exact .pure .nil
  | succ count ih =>
    rw [times_succ_eq_bind, times_succ_eq_bind]
    apply h.bind
    intro first first' hfirst
    apply ih.bind
    intro others others' hothers
    exact .pure (.cons hfirst hothers)

/-- Counted lists refuse the same counts, and find lists that are related element by element. -/
theorem counted (h : Agrees read read' R) (minSize : Nat) (what : String) :
    Agrees (counted minSize what read) (counted minSize what read') (List.Forall₂ R) := by
  unfold Read.counted
  apply (refl (count minSize what)).bind
  rintro n _ rfl
  exact h.times n

section Accepts

variable {Fits : β → Prop} {wire : β → Bytes} {reader after : Reader} {a : α} {b : β}

/-- A read that agrees with one of plain values takes the encoding of one off the front. -/
theorem ok_of_accepts (h : Agrees read read' R) (hread' : Accepts read' id Fits wire)
    (hfits : Fits b) (hahead : wire b <+: reader.ahead) :
    ∃ a, read reader = .ok a (reader.advance (wire b).length) ∧ R a b := by
  have hplain := hread'.eq_ok_iff.2 ⟨hfits, hahead, rfl⟩
  obtain ⟨a, b', after, ha, hb, hR⟩ | ⟨e, e', after, after', -, he', -⟩ := h reader
  · rw [hplain] at hb
    injection hb with hb hafter
    subst hb hafter
    exact ⟨a, ha, hR⟩
  · rw [hplain] at he'
    contradiction

/-- What it takes off the front is the encoding of the value that the plain read makes of it. -/
theorem exists_of_ok (h : Agrees read read' R) (hread' : Accepts read' id Fits wire)
    (ha : read reader = .ok a after) :
    ∃ b, R a b ∧ Fits b ∧ wire b <+: reader.ahead ∧ after = reader.advance (wire b).length := by
  obtain ⟨a', b, after', ha', hb, hR⟩ | ⟨e, e', after', after'', he, -, -⟩ := h reader
  · rw [ha'] at ha
    injection ha with hsame hafter
    subst hsame hafter
    exact ⟨b, hR, hread'.eq_ok_iff.1 hb⟩
  · rw [he] at ha
    contradiction

end Accepts

end Agrees

/-! ## Fields of fixed width -/

/-- `read` answers wherever `width` bytes are left, moves over them, and fails for want of bytes
everywhere else. -/
def Spans (width : Nat) (read : Read α) : Prop :=
  ∀ reader : Reader,
    if width ≤ reader.ahead.length then ∃ a, read reader = .ok a (reader.advance width)
    else ∃ needed remaining reader', read reader = .error (.underrun needed remaining) reader'

namespace Spans

theorem take (count : Nat) : Spans count (take count) := by
  intro reader
  rw [take_apply]
  change if count ≤ reader.remaining then _ else _
  split_ifs
  · exact ⟨_, rfl⟩
  · exact ⟨_, _, _, rfl⟩

theorem pure (a : α) : Spans 0 (pure a) := by
  intro reader
  rw [if_pos (Nat.zero_le _)]
  exact ⟨a, rfl⟩

/-- The widths of fields add up. -/
theorem bind {read : Read α} {next : α → Read β} {width width' : Nat} (h : Spans width read)
    (hnext : ∀ a, Spans width' (next a)) : Spans (width + width') (read >>= next) := by
  intro reader
  have hfirst := h reader
  rw [Access.bind_apply]
  by_cases hwidth : width ≤ reader.ahead.length
  · rw [if_pos hwidth] at hfirst
    obtain ⟨a, ha⟩ := hfirst
    have hsecond := hnext a (reader.advance width)
    rw [ha]
    dsimp only
    rw [Reader.advance_advance, Reader.ahead_advance, List.length_drop] at hsecond
    have hiff : width' ≤ reader.ahead.length - width ↔ width + width' ≤ reader.ahead.length := by
      omega
    simpa only [hiff] using hsecond
  · rw [if_neg hwidth] at hfirst
    obtain ⟨needed, remaining, reader', he⟩ := hfirst
    rw [if_neg (by omega), he]
    exact ⟨_, _, _, rfl⟩

theorem discard {read : Read α} {width : Nat} (h : Spans width read) :
    Spans width (discard read) := by
  intro reader
  have hread := h reader
  rw [Access.discard_apply]
  split_ifs at hread ⊢
  · obtain ⟨a, ha⟩ := hread
    exact ⟨(), by rw [ha]⟩
  · obtain ⟨needed, remaining, reader', he⟩ := hread
    exact ⟨needed, remaining, reader', by rw [he]⟩

theorem skip (count : Nat) : Spans count (skip count) :=
  (take count).discard

theorem bytes (count : Nat) : Spans count (bytes count) :=
  (take count).bind fun _ ↦ pure _

theorem byte : Spans 1 byte :=
  (bytes 1).bind fun _ ↦ pure _

theorem uint32 : Spans 4 uint32 :=
  (bytes 4).bind fun _ ↦ pure _

theorem uint64 : Spans 8 uint64 :=
  (bytes 8).bind fun _ ↦ pure _

theorem int64 : Spans 8 int64 :=
  uint64.bind fun _ ↦ pure _

theorem port : Spans 2 port :=
  (bytes 2).bind fun _ ↦ pure _

/-- Reads of one width agree, whatever they answer. -/
theorem agrees {read : Read α} {read' : Read β} {width : Nat} (h : Spans width read)
    (h' : Spans width read') : Agrees read read' fun _ _ ↦ True := by
  intro reader
  have hread := h reader
  have hread' := h' reader
  split_ifs at hread hread'
  · obtain ⟨a, ha⟩ := hread
    obtain ⟨b, hb⟩ := hread'
    exact .inl ⟨a, b, _, ha, hb, trivial⟩
  · obtain ⟨needed, remaining, after, he⟩ := hread
    obtain ⟨needed', remaining', after', he'⟩ := hread'
    exact .inr ⟨_, _, after, after', he, he', rfl⟩

end Spans

/-- To skip counted bytes is to read them and to drop them. -/
theorem skipCounted_agrees : Agrees skipCounted countedBytes fun _ _ ↦ True :=
  (Agrees.refl countedBytes).discard_left

end Read

end CoinWire
