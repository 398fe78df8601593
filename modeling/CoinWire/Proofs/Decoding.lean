import Mathlib
import CoinWire.Proofs.Holding.Block

/-!
# Decoding

Decoding a byte string succeeds exactly where the encoding of a value that fits lies at its front,
under every configuration. The value is the only one, what was made of the bytes reads back as it,
and its size and its bytes are those of the front. What follows the front has no influence, and no
part of an encoding is an encoding. The sizes that a count is checked against are lower bounds, so
they turn nothing away.
-/

namespace CoinWire

open Holder Plain Read

variable {σ V : Type}

/-- Decoding under every configuration is the inverse of encoding. -/
structure Decodes [Plain V] (read : ParseConfig → Read σ)
    (ofBytes : Bytes → ParseConfig → Except CodecError σ) (contents : Access σ V)
    (length : σ → Nat) (bytes : Access σ Bytes) : Prop where
  /-- The grammar is accepted and nothing else. -/
  accepts : ∀ source config,
    (∃ s, ofBytes source config = .ok s) ↔
      ∃ (v : V) (tail : Bytes), Fits v ∧ source = wire v ++ tail
  /-- A byte string has one reading. -/
  unique : ∀ (v w : V) (tail tail' : Bytes), Fits v → Fits w →
    wire v ++ tail = wire w ++ tail' → v = w ∧ tail = tail'
  /-- What is decoded is the value, and the tail is left ahead of the cursor. -/
  value : ∀ (v : V) (tail : Bytes) config, Fits v →
    ∃ s after, read config (Reader.ofBytes (wire v ++ tail)) = .ok s after ∧
      ofBytes (wire v ++ tail) config = .ok s ∧ after.ahead = tail ∧
      contents.answer s = .ok v ∧ length s = (wire v).length ∧ bytes.answer s = .ok (wire v)
  /-- An encoding that is cut short is no encoding. -/
  cut : ∀ (v : V) (front : Bytes) config, Fits v → front <+: wire v → front ≠ wire v →
    ∃ e, ofBytes front config = .error e

namespace Read.Agrees

variable [Plain V] {read : Read σ} {R : σ → V → Prop}

/-- A read that agrees with the plain one takes an encoding off the front and leaves the tail. -/
theorem exists_ok (h : Agrees read (Plain.read : Read V) R) {v : V} (hfits : Fits v)
    (tail : Bytes) :
    ∃ s after, read (Reader.ofBytes (wire v ++ tail)) = .ok s after ∧ after.ahead = tail ∧
      R s v := by
  have hahead : wire v <+: (Reader.ofBytes (wire v ++ tail)).ahead := List.prefix_append _ _
  obtain ⟨s, hs, hR⟩ := h.ok_of_accepts accepts_read hfits hahead
  exact ⟨s, _, hs, List.drop_left, hR⟩

theorem exists_answer_iff (h : Agrees read (Plain.read : Read V) R) (source : Bytes) :
    (∃ s, read.answer (Reader.ofBytes source) = .ok s) ↔
      ∃ (v : V) (tail : Bytes), Fits v ∧ source = wire v ++ tail := by
  constructor
  · rintro ⟨s, hs⟩
    obtain ⟨after, hread⟩ := Access.answer_eq_ok_iff.1 hs
    obtain ⟨v, -, hfits, ⟨tail, htail⟩, -⟩ := h.exists_of_ok accepts_read hread
    exact ⟨v, tail, hfits, htail.symm⟩
  · rintro ⟨v, tail, hfits, rfl⟩
    obtain ⟨s, after, hs, -, -⟩ := h.exists_ok hfits tail
    exact ⟨s, Access.answer_eq_ok hs⟩

end Read.Agrees

/-- An encoding of which a part is missing does not begin with an encoding: both would lie at the
front of the whole one. -/
theorem Plain.ne_append_of_cut [Plain V] {v w : V} {front tail : Bytes} (hv : Fits v)
    (hfront : front <+: wire v) (hne : front ≠ wire v) (hw : Fits w) :
    front ≠ wire w ++ tail := by
  rintro rfl
  obtain ⟨rest, hrest⟩ := hfront
  rw [List.append_assoc, ← List.append_nil (wire v)] at hrest
  obtain ⟨rfl, hnil⟩ := Plain.eq_of_append_eq hw hv hrest
  rw [(List.append_eq_nil_iff.1 hnil).1, List.append_nil] at hne
  contradiction

theorem Looks.answer_eq [Holder σ V] {α : Type} {access : Access σ α} {f : V → α}
    (h : Looks access Eq fun v ↦ .ok (f v)) {s : σ} {v : V} (hs : Holds s v) :
    access.answer s = .ok (f v) :=
  h.answer_eq_mapError hs

/-- Reads that agree with the plain one decode, if what they make reads back as what it holds. -/
theorem Decodes.of_agrees [Plain V] [Holder σ V] {read : ParseConfig → Read σ}
    {contents : Access σ V} {length : σ → Nat} {bytes : Access σ Bytes}
    (hread : ∀ config, Agrees (read config) (Plain.read : Read V) Holds)
    (hcontents : Looks contents Eq fun v ↦ .ok v)
    (hlength : ∀ {s v}, Holds s v → length s = (wire v).length)
    (hbytes : Looks bytes Eq fun v ↦ .ok (wire v)) :
    Decodes read (fun source config ↦ (read config).answer (Reader.ofBytes source)) contents length
      bytes := by
  refine ⟨fun source config ↦ (hread config).exists_answer_iff source,
    fun v w tail tail' ↦ Plain.eq_of_append_eq, ?_, ?_⟩
  · intro v tail config hfits
    obtain ⟨s, after, hs, hahead, hholds⟩ := (hread config).exists_ok hfits tail
    exact ⟨s, after, hs, Access.answer_eq_ok hs, hahead, hcontents.answer_eq hholds,
      hlength hholds, hbytes.answer_eq hholds⟩
  · intro v front config hfits hfront hne
    cases hanswer : (read config).answer (Reader.ofBytes front) with
    | error e => exact ⟨e, rfl⟩
    | ok s =>
      obtain ⟨w, tail, hfits', hwire⟩ := ((hread config).exists_answer_iff front).1 ⟨s, hanswer⟩
      exact absurd hwire (Plain.ne_append_of_cut hfits hfront hne hfits')

theorem Node.decodes {F : Type} [Layout F] [Plain V] [Holder F V] [LawfulLayout F V]
    {contents : Access (Node F) V} (h : Looks contents Eq fun v ↦ .ok v) :
    Decodes Node.read Node.ofBytes contents Node.length Node.bytes :=
  .of_agrees (fun config ↦ (Node.read_agrees config).mono fun _ _ ↦ And.left) h Node.Holds.length_eq
    Node.looks_bytes

/-- Inputs, outputs, transactions and whole blocks are decoded from exactly their encodings. -/
theorem decodes_wire :
    Decodes Node.read Node.ofBytes (Node.fields : Access Input TxIn) Node.length Node.bytes ∧
      Decodes Node.read Node.ofBytes (Node.fields : Access Output TxOut) Node.length Node.bytes ∧
      Decodes Node.read Node.ofBytes Transaction.contents Node.length Node.bytes ∧
      Decodes Block.read Block.ofBytes Block.contents Block.length Block.bytes := by
  refine ⟨Node.decodes Node.looks_fields, Node.decodes Node.looks_fields,
    Node.decodes Transaction.looks_contents, ?_⟩
  exact .of_agrees Block.read_agrees Block.looks_contents Block.Holds.length_eq Block.looks_bytes

end CoinWire
