import Mathlib
import CoinWire.Proofs.Payloads

/-!
# Verdicts

A value may be moved over or read, and its children may be read with it or left for later. These are
different walks through one format, which group their steps differently. Each of them agrees with
the read of the plain value, so all reach one verdict: they accept and stop at the same place, or
they refuse for the same reason.
-/

namespace CoinWire

open Holder Read

variable {α β γ F V : Type}

namespace CodecError

variable {e e' : CodecError}

/-- The errors are of one variant, and a violation is worded the same in both. No more than the
numbers of an underrun may differ. -/
structure Alike (e e' : CodecError) : Prop where
  kind : e.kind = e'.kind
  wording : ∀ cause, e = .violation cause → e'.message = e.message

theorem eq_of_kind_eq_violation {cause : Violation} (h : e.kind = .violation cause) :
    e = .violation cause := by
  cases e with
  | underrun needed remaining => contradiction
  | _ => exact h

theorem alike_of_kind_eq (h : e.kind = e'.kind) : e.Alike e' := by
  refine ⟨h, ?_⟩
  rintro cause rfl
  rw [eq_of_kind_eq_violation h.symm]

end CodecError

/-! ## Reads -/

/-- Wherever the cursor stands in whatever byte string, both reads succeed and leave it at one
place, or both fail alike. -/
def Read.Concur (read : Read α) (read' : Read β) : Prop :=
  ∀ reader,
    (∃ a b after, read reader = .ok a after ∧ read' reader = .ok b after) ∨
      ∃ e e' after after', read reader = .error e after ∧ read' reader = .error e' after' ∧
        e.Alike e'

/-- Reads that agree with one read concur. -/
theorem Read.Agrees.concur {read : Read α} {read' : Read β} {plain : Read γ} {R : α → γ → Prop}
    {S : β → γ → Prop} (h : Agrees read plain R) (h' : Agrees read' plain S) :
    Concur read read' := by
  intro reader
  obtain ⟨a, c, after, ha, hc, -⟩ | ⟨e, f, after, middle, he, hf, hkind⟩ := h reader
  · obtain ⟨b, c', after', hb, hc', -⟩ | ⟨e', f', after', middle', -, hf', -⟩ := h' reader
    · rw [hc] at hc'
      injection hc' with _ hafter
      subst hafter
      exact .inl ⟨a, b, after, ha, hb⟩
    · rw [hc] at hf'
      contradiction
  · obtain ⟨b, c', after', -, hc', -⟩ | ⟨e', f', after', middle', he', hf', hkind'⟩ := h' reader
    · rw [hf] at hc'
      contradiction
    · rw [hf] at hf'
      injection hf' with hsame
      subst hsame
      have halike := CodecError.alike_of_kind_eq (hkind.trans hkind'.symm)
      exact .inr ⟨e, e', after, after', he, he', halike⟩

/-- Moving over the fields and reading them concur, whether the children are read too or not. -/
def Layout.ScansAsParses (F : Type) [Layout F] : Prop :=
  ∀ config, Concur (Layout.scan F) (Layout.parse config : Read F)

theorem LawfulLayout.scansAsParses [Layout F] [Plain V] [Holder F V] [LawfulLayout F V] :
    Layout.ScansAsParses F :=
  fun config ↦ (LawfulLayout.scan_agrees (F := F)).concur (LawfulLayout.parse_agrees config)

/-! ## Payloads -/

/-- Under all configurations a payload is accepted, or under all it is rejected alike. -/
def OneVerdict (decode : Bytes → ParseConfig → Except CodecError α) : Prop :=
  ∀ payload config config',
    (∃ a b, decode payload config = .ok a ∧ decode payload config' = .ok b) ∨
      ∃ e e', decode payload config = .error e ∧ decode payload config' = .error e' ∧ e.Alike e'

/-- Reads of one plain value under each configuration. -/
theorem OneVerdict.of_agrees {read : ParseConfig → Read α} {plain : Read γ} {R : α → γ → Prop}
    (h : ∀ config, Agrees (read config) plain R) :
    OneVerdict fun payload config ↦ (read config).answer (Reader.ofBytes payload) := by
  intro payload config config'
  dsimp only
  obtain ⟨a, b, after, ha, hb⟩ | ⟨e, e', after, after', he, he', halike⟩ :=
    (h config).concur (h config') (Reader.ofBytes payload)
  · exact .inl ⟨a, b, Access.answer_eq_ok ha, Access.answer_eq_ok hb⟩
  · rw [Access.answer, he, Access.answer, he']
    exact .inr ⟨e, e', rfl, rfl, halike⟩

theorem Node.oneVerdict [Layout F] [Plain V] [Holder F V] [LawfulLayout F V] :
    OneVerdict (Node.ofBytes : Bytes → ParseConfig → Except CodecError (Node F)) :=
  .of_agrees fun config ↦ (Node.read_agrees config).mono fun _ _ ↦ And.left

theorem Message.headers_oneVerdict : OneVerdict (PayloadParser.ofRead readHeaders) := by
  have hplain (config : ParseConfig) : Agrees (readHeaders config) (do
      let count ← countUpTo maxHeaders (Header.size + 2) "header"
      times count PlainBlock.readEmpty) fun _ _ ↦ True := by
    apply (Agrees.refl (countUpTo maxHeaders (Header.size + 2) "header")).bind
    rintro count _ rfl
    exact ((Block.readEmpty_agrees config).times count).answer_left fun _ _ _ ↦ trivial
  exact .of_agrees hplain

/-- Moving over a header, a body, a transaction, an input or an output comes to the same end as
reading it, on whatever bytes and from whatever position. So no configuration accepts a block, a
transaction or a list of headers that another rejects, or gives another reason for rejecting it. -/
theorem scan_parse_verdicts :
    (Layout.ScansAsParses Header ∧ Layout.ScansAsParses BodyFields ∧
      Layout.ScansAsParses TxFields ∧ Layout.ScansAsParses TxIn ∧ Layout.ScansAsParses TxOut) ∧
    OneVerdict Block.ofBytes ∧
    OneVerdict (Node.ofBytes : Bytes → ParseConfig → Except CodecError Transaction) ∧
    OneVerdict (PayloadParser.ofRead Message.readHeaders) := by
  refine ⟨⟨?_, ?_, ?_, ?_, ?_⟩, ?_, ?_, Message.headers_oneVerdict⟩
  · exact LawfulLayout.scansAsParses
  · exact LawfulLayout.scansAsParses
  · exact LawfulLayout.scansAsParses
  · exact LawfulLayout.scansAsParses
  · exact LawfulLayout.scansAsParses
  · exact .of_agrees Block.read_agrees
  · exact Node.oneVerdict

/-- A count that the bytes left cannot hold is refused in the same words by both walks. -/
example : (Layout.scan TxFields).answer (Reader.ofBytes [1, 0, 0, 0, 0, 0, 0, 0, 9, 0]) =
    .error (.violation (.excessiveCount "input" 9 1)) ∧
    ((Layout.parse .eager : Read TxFields)).answer (Reader.ofBytes [1, 0, 0, 0, 0, 0, 0, 0, 9, 0]) =
      .error (.violation (.excessiveCount "input" 9 1)) := by
  constructor <;> cbv

end CoinWire
