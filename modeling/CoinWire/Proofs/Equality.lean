import Mathlib
import CoinWire.Proofs.Exchange
import CoinWire.Proofs.Holding.Item

/-!
# Equality and encodings

Two values of one kind are equal just where they are encoded alike. A value that is short enough is
read back from its encoding, so the encoding has it all; a block without a body is encoded shorter
than any block with the same header that has one. What is held beside the fields has no part in
either, so it does not matter how the values came about.
-/

namespace CoinWire

open Plain Read

/-! ## Plain values -/

theorem Plain.eq_of_wire_eq {V : Type} [Plain V] {v w : V} (hv : Fits v) (hw : Fits w)
    (h : wire v = wire w) : v = w :=
  accepts_read.unique hv hw List.prefix_rfl (h ▸ List.prefix_rfl)

/-- The header is read back from the front, and what is left tells whether there is a body. -/
theorem PlainBlock.eq_of_wire_eq {v w : PlainBlock} (hshort : v.wire.length < UInt64.size)
    (h : v.wire = w.wire) : v = w := by
  obtain ⟨header, body⟩ := v
  obtain ⟨header', body'⟩ := w
  have hparts : header.wire ++ (body.map Body.wire).getD [] =
      header'.wire ++ (body'.map Body.wire).getD [] := h
  obtain ⟨rfl, hrest⟩ := Plain.eq_of_append_eq (V := Header) trivial trivial hparts
  cases body with
  | none =>
    cases body' with
    | none => rfl
    | some body' =>
      have hnil : body'.wire = [] := hrest.symm
      exact absurd (wire_pos body') (by simp [Plain.wire, hnil])
  | some body =>
    cases body' with
    | none =>
      have hnil : body.wire = [] := hrest
      exact absurd (wire_pos body) (by simp [Plain.wire, hnil])
    | some body' =>
      have hwire : body.wire = body'.wire := hrest
      have hlength : body.wire.length < 2 ^ 64 := by
        refine lt_of_le_of_lt ?_ hshort
        simp [PlainBlock.wire]
      have hbody : body = body' := Plain.eq_of_wire_eq (body.fits_of_length_lt hlength)
        (body'.fits_of_length_lt (hwire ▸ hlength)) hwire
      rw [hbody]

namespace PlainItem

theorem eq_of_wire_eq {v w : PlainItem} (hkind : v.kind = w.kind)
    (hshort : v.wire.length < UInt64.size) (h : v.wire = w.wire) : v = w := by
  have hshort' : w.wire.length < UInt64.size := h ▸ hshort
  match v, w, hkind with
  | .block v, .block w, _ => exact congrArg block (PlainBlock.eq_of_wire_eq hshort h)
  | .transaction v, .transaction w, _ =>
    exact congrArg transaction (Plain.eq_of_wire_eq (v.fits_of_length_lt hshort)
      (w.fits_of_length_lt hshort') h)
  | .input v, .input w, _ =>
    exact congrArg input (Plain.eq_of_wire_eq (v.fits_of_length_lt hshort)
      (w.fits_of_length_lt hshort') h)
  | .output v, .output w, _ =>
    exact congrArg output (Plain.eq_of_wire_eq (v.fits_of_length_lt hshort)
      (w.fits_of_length_lt hshort') h)

theorem wire_inj {v w : PlainItem} (hkind : v.kind = w.kind)
    (hshort : v.wire.length < UInt64.size) : v.wire = w.wire ↔ v = w :=
  ⟨eq_of_wire_eq hkind hshort, congrArg wire⟩

end PlainItem

/-! ## Items -/

theorem Inquiry.against_onItem {v w : PlainItem} (hkind : v.kind = w.kind) :
    ∃ equal, (Inquiry.against w).onItem v = .ok (.flag equal) ∧ (equal = true ↔ v = w) := by
  match v, w, hkind with
  | .block v, .block w, _ => exact ⟨decide (v = w), rfl, by simp⟩
  | .transaction v, .transaction w, _ => exact ⟨decide (v = w), rfl, by simp⟩
  | .input v, .input w, _ => exact ⟨decide (v = w), rfl, by simp⟩
  | .output v, .output w, _ => exact ⟨decide (v = w), rfl, by simp⟩

/-- Blocks and transactions have a hash. -/
theorem Inquiry.hash_onItem {v : PlainItem} (h : v.kind = .block ∨ v.kind = .transaction) :
    ∃ hash, (Inquiry.get .hash).onItem v = .ok (.hash hash) := by
  cases v with
  | block | transaction => exact ⟨_, rfl⟩
  | input | output => simp [PlainItem.kind] at h

/-- Two items of one kind are equal if and only if their encodings are, and equal blocks and
transactions have the same hash. No encoding in memory is as long as `2 ^ 64` bytes. -/
theorem Item.Reachable.equal_iff_bytes_eq {left right : Item} (hleft : left.Reachable)
    (hright : right.Reachable) (hkind : left.kind = right.kind) :
    ∃ equal encoding encoding',
      (Visit.against right).onItem.answer left = .ok (.flag equal) ∧
      Visit.bytes.onItem.answer left = .ok encoding ∧
      Visit.bytes.onItem.answer right = .ok encoding' ∧
      (encoding.length < UInt64.size → (equal = true ↔ encoding = encoding')) ∧
      (equal = true → encoding = encoding' ∧
        (left.kind = .block ∨ left.kind = .transaction →
          ∃ hash, (Visit.get .hash).onItem.answer left = .ok (.hash hash) ∧
            (Visit.get .hash).onItem.answer right = .ok (.hash hash))) := by
  obtain ⟨v, hv⟩ := hleft.holds
  obtain ⟨w, hw⟩ := hright.holds
  have hkinds : v.kind = w.kind := by rw [← hv.kind_eq, ← hw.kind_eq, hkind]
  obtain ⟨equal, hequal, hiff⟩ := Inquiry.against_onItem hkinds
  refine ⟨equal, v.wire, w.wire, (Visit.asks_against hw).answer_onItem hv hequal,
    Visit.answer_bytes_onItem hv, Visit.answer_bytes_onItem hw, ?_, ?_⟩
  · intro hshort
    rw [hiff, PlainItem.wire_inj hkinds hshort]
  · intro hsame
    obtain rfl : v = w := hiff.1 hsame
    refine ⟨rfl, ?_⟩
    intro hhashed
    rw [hv.kind_eq] at hhashed
    obtain ⟨hash, hhash⟩ := Inquiry.hash_onItem hhashed
    exact ⟨hash, (Visit.asks_get .hash).answer_onItem hv hhash,
      (Visit.asks_get .hash).answer_onItem hw hhash⟩

/-- A transaction that was built of an input and an output equals one that was decoded and is not
parsed yet. Another that pays one unit more does not. -/
theorem Item.Reachable.equal_built_decoded :
    let encoding (value : UInt8) : Bytes := [1, 0, 0, 0, 7, 0, 0, 0, 1] ++ List.replicate 32 0 ++
      [0xFF, 0xFF, 0xFF, 0xFF, 1, 0x51, 0xFF, 0xFF, 0xFF, 0xFF, 1, value, 0, 0, 0, 0, 0, 0, 0, 1,
        0x52, 0, 0, 0, 0]
    let built (value : Int64) := Item.transaction (Node.ofFields ⟨Transaction.currentVersion, 7,
      [Input.coinbase [0x51]], [Output.new value [0x52]], 0⟩ ParseConfig.eager)
    let decoded := Item.transaction ⟨some (encoding 5), true, .deferredRetain, none, none⟩
    (built 5).Reachable ∧ (built 6).Reachable ∧ decoded.Reachable ∧
      (built 5).kind = decoded.kind ∧ (built 6).kind = decoded.kind ∧
      (Visit.against decoded).onItem.answer (built 5) = .ok (.flag true) ∧
      (Visit.against decoded).onItem.answer (built 6) = .ok (.flag false) ∧
      ∃ hash, (Visit.get .hash).onItem.answer (built 5) = .ok (.hash hash) ∧
        (Visit.get .hash).onItem.answer decoded = .ok (.hash hash) := by
  intro encoding built decoded
  have hbuilt (value : Int64) : (built value).Reachable := by
    let operations : List Operation := [.make "to" (.newTransaction 7),
      .make "input" (.newCoinbase [0x51]), .make "output" (.newOutput value [0x52]),
      .add ⟨"to", none, none, none⟩ ⟨"input", none, none, none⟩,
      .add ⟨"to", none, none, none⟩ ⟨"output", none, none, none⟩]
    have hslot : ("to", built value) ∈
        (Workbench.run Workbench.perform operations Workbench.empty).2.slots := List.mem_cons_self
    exact .run operations (List.forall_mem_nil _) hslot
  have hdecoded : decoded.Reachable :=
    @Item.Reachable.of_make (.transaction (encoding 5) .deferredRetain) _ (by cbv)
  have hbytes : Visit.bytes.onItem.answer (built 5) = .ok (encoding 5) := rfl
  have hbytes' : Visit.bytes.onItem.answer (built 6) = .ok (encoding 6) := rfl
  have hraw : Visit.bytes.onItem.answer decoded = .ok (encoding 5) := rfl
  obtain ⟨equal, bytes, raw, hequal, hleft, hright, hiff, hsame⟩ :=
    (hbuilt 5).equal_iff_bytes_eq hdecoded rfl
  obtain ⟨equal', bytes', raw', hequal', hleft', hright', hiff', -⟩ :=
    (hbuilt 6).equal_iff_bytes_eq hdecoded rfl
  obtain rfl : encoding 5 = bytes := Except.ok.inj (hbytes.symm.trans hleft)
  obtain rfl : encoding 5 = raw := Except.ok.inj (hraw.symm.trans hright)
  obtain rfl : encoding 6 = bytes' := Except.ok.inj (hbytes'.symm.trans hleft')
  obtain rfl : encoding 5 = raw' := Except.ok.inj (hraw.symm.trans hright')
  have htrue : equal = true := (hiff (by decide)).2 rfl
  have hfalse : equal' = false := by
    rw [← Bool.not_eq_true, hiff' (by decide)]
    decide
  exact ⟨hbuilt 5, hbuilt 6, hdecoded, rfl, rfl, htrue ▸ hequal, hfalse ▸ hequal',
    (hsame htrue).2 (.inr rfl)⟩

end CoinWire
