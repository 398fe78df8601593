import Mathlib
import CoinWire.Proofs.Merkle
import CoinWire.Proofs.Exchange

/-!
# Blocks with the Merkle root of another

An odd level is hashed as if its last hash stood there twice. So it is the same for the root whether
the transactions below that hash are in the block once or twice: the block with the repeated ones
has another encoding and the same root. The tail that is repeated can be one transaction or any full
tree of them, according to which level is odd.
-/

namespace CoinWire

open Holder

theorem length_rtake {α : Type} (items : List α) (count : Nat) :
    (items.rtake count).length = min count items.length := by
  rw [List.rtake, List.length_drop]
  omega

theorem rtake_map {α β : Type} (f : α → β) (items : List α) (count : Nat) :
    (items.map f).rtake count = (items.rtake count).map f := by
  rw [List.rtake, List.rtake, List.length_map, List.map_drop]

/-! ## Hashes -/

/-- The last of an odd number of full trees may as well be there twice. -/
theorem Hash.merkleRoot_append_rtake {hashes : List Hash} {trees height : Nat} (hodd : Odd trees)
    (hmany : 3 ≤ trees) (h : hashes.length = trees * 2 ^ height) :
    merkleRoot (hashes ++ hashes.rtake (2 ^ height)) = merkleRoot hashes := by
  obtain ⟨pairs, rfl⟩ := hodd
  have hlength : hashes.length = 2 * pairs * 2 ^ height + 2 ^ height := by
    rw [h, Nat.add_one_mul]
  have hfront : (hashes.rdrop (2 ^ height)).length = 2 * pairs * 2 ^ height := by
    rw [List.rdrop, List.length_take, hlength, Nat.add_sub_cancel,
      Nat.min_eq_left (Nat.le_add_right _ _)]
  have hback : (hashes.rtake (2 ^ height)).length = 2 ^ height := by
    rw [length_rtake, hlength, Nat.min_eq_left (Nat.le_add_left _ _)]
  have hjoin : hashes.rdrop (2 ^ height) ++ hashes.rtake (2 ^ height) = hashes :=
    List.take_append_drop _ _
  calc
    merkleRoot (hashes ++ hashes.rtake (2 ^ height)) =
        merkleRoot (hashes.rdrop (2 ^ height) ++
          (hashes.rtake (2 ^ height) ++ hashes.rtake (2 ^ height))) := by
      rw [← List.append_assoc, hjoin]
    _ = merkleRoot (hashes.rdrop (2 ^ height) ++ hashes.rtake (2 ^ height)) :=
      merkleRoot_append_twice (by omega) hfront hback
    _ = merkleRoot hashes := by rw [hjoin]

/-! ## Encodings -/

/-- The count in front of a list takes eight bytes less at most, and the least transaction fourteen.
-/
theorem Body.length_wire_lt_append {body : Body} {txs : List Tx} (h : txs ≠ []) :
    body.wire.length <
      ({ body with transactions := body.transactions ++ txs } : Body).wire.length := by
  have hsize := VarInt.size_le (UInt64.ofNat body.transactions.length)
  have hsize' := VarInt.size_pos (UInt64.ofNat (body.transactions ++ txs).length)
  have hmore : txs.length * TxFields.minSize ≤ (txs.flatMap Tx.wire).length :=
    Read.le_length_flatMap fun tx _ ↦ tx.minSize_le_length_wire
  have hlong : TxFields.minSize ≤ txs.length * TxFields.minSize :=
    Nat.le_mul_of_pos_left _ (List.length_pos_iff.2 h)
  have hmin : TxFields.minSize = 14 := rfl
  simp only [Body.wire, List.length_append, VarInt.length_ofLength, VarInt.lengthSize,
    List.flatMap_append] at hsize' ⊢
  omega

/-! ## Blocks -/

namespace Block

variable {block : Block} {header : Header} {body : Body}

/-- Appends copies of the last transactions, one after the other. -/
def repeatLast (count : Nat) : Access Block Unit := do
  let copies ← lookTransactions do return (← get).rtake count
  copies.forM addTransaction

theorem Holds.exists_addTransaction {transaction : Transaction} {tx : Tx}
    (hcopy : Holder.Holds transaction tx) (h : block.Holds ⟨header, some body⟩) :
    ∃ after, addTransaction transaction block = .ok () after ∧
      after.Holds ⟨header, some { body with transactions := body.transactions ++ [tx] }⟩ := by
  obtain ⟨_, after, hadd, -, hafter⟩ := (edits_addTransaction hcopy).exists_of_ok h rfl
  exact ⟨after, hadd, hafter⟩

theorem Holds.exists_addTransactions {transactions : List Transaction} {txs : List Tx}
    (hcopies : Holder.Holds transactions txs) (h : block.Holds ⟨header, some body⟩) :
    ∃ after, transactions.forM addTransaction block = .ok () after ∧
      after.Holds ⟨header, some { body with transactions := body.transactions ++ txs }⟩ := by
  induction hcopies generalizing block body with
  | nil =>
    rw [List.append_nil]
    exact ⟨block, rfl, h⟩
  | @cons transaction tx transactions txs hcopy _ ih =>
    obtain ⟨middle, hadd, hmiddle⟩ := h.exists_addTransaction hcopy
    obtain ⟨after, hrest, hafter⟩ := ih hmiddle
    refine ⟨after, ?_, ?_⟩
    · change (addTransaction transaction >>= fun _ ↦ transactions.forM addTransaction) block = _
      rw [Access.bind_apply, hadd]
      exact hrest
    · rw [List.append_cons]
      exact hafter

/-- The copies hold what the last transactions hold, whatever is cached in them. -/
theorem Holds.exists_repeatLast (h : block.Holds ⟨header, some body⟩) (count : Nat) :
    ∃ after, repeatLast count block = .ok () after ∧
      after.Holds ⟨header, some { body with
        transactions := body.transactions ++ body.transactions.rtake count }⟩ := by
  have hlast : Looks (do return (← get).rtake count : Access (List Transaction) _) Holder.Holds
      fun txs : List Tx ↦ .ok (txs.rtake count) := by
    apply Looks.gets
    intro transactions txs hholds
    rw [List.rtake, List.rtake, List.Forall₂.length_eq hholds]
    exact List.forall₂_drop _ hholds
  obtain ⟨copies, middle, hcopies, hholds, hmiddle⟩ :=
    (looks_lookTransactions hlast).exists_of_ok h rfl
  obtain ⟨after, hadd, hafter⟩ := hmiddle.exists_addTransactions hholds
  refine ⟨after, ?_, hafter⟩
  rw [repeatLast, Access.bind_apply, hcopies]
  exact hadd

/-- A reachable block that counts its transactions has a body with so many. -/
theorem exists_holds_of_transactionCount (hreachable : (Item.block block).Reachable) {count : Nat}
    (hcount : transactionCount.answer block = .ok count) :
    ∃ header body, block.Holds ⟨header, some body⟩ ∧ body.transactions.length = count := by
  obtain ⟨_, @⟨_, ⟨header, body⟩, h⟩⟩ := hreachable.holds
  have hfound := looks_transactionCount.answer_eq_mapError h
  rw [hcount] at hfound
  cases body with
  | none => contradiction
  | some body =>
    injection hfound with hfound
    exact ⟨header, body, h, hfound.symm⟩

/-- A list of an odd number of full trees, three at least, keeps its root when the last tree is
repeated. So does a block of as many transactions, while its encoding grows. -/
theorem merkleRoot_repeatLast {trees height : Nat} (hodd : Odd trees) (hmany : 3 ≤ trees) :
    (∀ hashes : List Hash, hashes.length = trees * 2 ^ height →
      Hash.merkleRoot (hashes ++ hashes.rtake (2 ^ height)) = Hash.merkleRoot hashes) ∧
    ∀ block : Block, (Item.block block).Reachable →
      transactionCount.answer block = .ok (trees * 2 ^ height) →
        ∃ header body after root encoding encoding',
          contents.answer block = .ok ⟨header, some body⟩ ∧
          repeatLast (2 ^ height) block = .ok () after ∧
          contents.answer after = .ok ⟨header, some { body with
            transactions := body.transactions ++ body.transactions.rtake (2 ^ height) }⟩ ∧
          computeMerkleRoot.answer block = .ok root ∧
          computeMerkleRoot.answer after = .ok root ∧
          bytes.answer block = .ok encoding ∧ bytes.answer after = .ok encoding' ∧
          encoding.length < encoding'.length := by
  refine ⟨fun hashes ↦ Hash.merkleRoot_append_rtake hodd hmany, ?_⟩
  intro block hreachable hcount
  obtain ⟨header, body, h, hlength⟩ := exists_holds_of_transactionCount hreachable hcount
  obtain ⟨after, hrepeat, hafter⟩ := h.exists_repeatLast (2 ^ height)
  have hroot := Hash.merkleRoot_append_rtake hodd hmany ((List.length_map Tx.hash).trans hlength)
  have hmore : body.transactions.rtake (2 ^ height) ≠ [] := by
    have hsome : 0 < trees * 2 ^ height := Nat.mul_pos (by omega) (Nat.two_pow_pos height)
    rw [← List.length_pos_iff, length_rtake, hlength]
    exact lt_min (Nat.two_pow_pos height) hsome
  refine ⟨header, body, after, Hash.merkleRoot (body.transactions.map Tx.hash), _, _,
    looks_contents.answer_eq_mapError h, hrepeat, looks_contents.answer_eq_mapError hafter,
    looks_computeMerkleRoot.answer_eq_mapError h, ?_, looks_bytes.answer_eq_mapError h,
    looks_bytes.answer_eq_mapError hafter, ?_⟩
  · rw [looks_computeMerkleRoot.answer_eq_mapError hafter, ← hroot, rtake_map, ← List.map_append]
    rfl
  · have hlonger : body.wire.length < _ := Body.length_wire_lt_append hmore
    simp only [PlainBlock.wire, List.length_append]
    exact Nat.add_lt_add_left hlonger _

/-- Six transactions are three pairs. The last two can be there twice. -/
theorem merkleRoot_repeatLast_six :
    let transaction (time : UInt8) : Bytes := [1, 0, 0, 0, time] ++ List.replicate 9 0
    let body : Bytes := [6] ++ [0, 1, 2, 3, 4, 5].flatMap transaction ++ [0]
    let header : Bytes := List.replicate 80 0
    let block : Block := ⟨⟨some header, true, .deferredRetain, none, none⟩,
      some ⟨some body, true, .deferredRetain, none, none⟩, some (header ++ body)⟩
    Odd 3 ∧ (Item.block block).Reachable ∧ transactionCount.answer block = .ok 6 ∧
      ∃ after root encoding encoding',
        repeatLast 2 block = .ok () after ∧ computeMerkleRoot.answer block = .ok root ∧
        computeMerkleRoot.answer after = .ok root ∧ bytes.answer block = .ok encoding ∧
        bytes.answer after = .ok encoding' ∧ encoding.length < encoding'.length := by
  intro transaction body header block
  have hmake : (Source.block (header ++ body) .deferredRetain).make = .ok (.block block) := by cbv
  have hreachable : (Item.block block).Reachable := .of_make hmake
  have hodd : Odd 3 := by decide
  have hcount : transactionCount.answer block = .ok 6 := rfl
  obtain ⟨-, hblocks⟩ := @merkleRoot_repeatLast 3 1 hodd le_rfl
  obtain ⟨_, _, after, root, encoding, encoding', -, hrepeat, -, hroots⟩ :=
    hblocks block hreachable hcount
  exact ⟨hodd, hreachable, hcount, after, root, encoding, encoding', hrepeat, hroots⟩

end Block

end CoinWire
