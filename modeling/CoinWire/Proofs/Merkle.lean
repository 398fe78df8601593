import Mathlib
import CoinWire.Hash.Merkle

/-!
# Merkle trees

Halving a list of hashes again and again makes the levels of a tree. The same tree can be walked
from the top down: a hash is made of the two below it, or of one of them twice where the level below
ends. Both have the same hashes at the same places, by induction on the height, and the root is what
is left after as many levels as it takes to come to one hash. A cut at an even place goes through
all levels below it, so a full tree and what stands beside it are hashed apart.
-/

namespace CoinWire.Hash

variable {leaves front back : List Hash}

/-! ## One level -/

/-- The parent of two neighbours, or of the last hash and itself. -/
theorem getElem?_parents (level : List Hash) (index : Nat) :
    (parents level)[index]? =
      level[2 * index]?.map fun left ↦ join left (level[2 * index + 1]?.getD left) := by
  fun_induction parents level generalizing index with
  | case1 left right rest ih =>
    cases index with
    | zero => rfl
    | succ index => exact ih index
  | case2 last =>
    cases index with
    | zero => rfl
    | succ index => simp [Nat.mul_succ]
  | case3 => simp

/-- No pair reaches over a cut at an even place. -/
theorem parents_append (h : Even front.length) (back : List Hash) :
    parents (front ++ back) = parents front ++ parents back := by
  fun_induction parents front with
  | case1 left right rest ih =>
    have hrest : Even rest.length := by
      simpa [Nat.even_add_one] using h
    rw [List.cons_append, List.cons_append, parents, ih hrest, List.cons_append]
  | case2 last => simp at h
  | case3 => rfl

/-- The root of a level is that of the level above. -/
theorem merkleRoot_parents {level : List Hash} (h : 1 < level.length) :
    merkleRoot (parents level) = merkleRoot level := by
  match level, h with
  | left :: right :: rest, _ => rw [merkleRoot, parents]

/-! ## All levels -/

/-- The level at a height has as many hashes as there are full or begun groups of leaves. -/
theorem length_iterate_parents (height : Nat) (leaves : List Hash) :
    (parents^[height] leaves).length = leaves.length ⌈/⌉ 2 ^ height := by
  induction height with
  | zero => simp
  | succ height ih =>
    have hpos : 0 < 2 ^ height := Nat.two_pow_pos height
    rw [Function.iterate_succ_apply', length_parents, ih, Nat.ceilDiv_eq_add_pred_div,
      Nat.ceilDiv_eq_add_pred_div, ← Nat.add_div_right _ hpos, Nat.div_div_eq_div_mul, Nat.pow_succ]
    congr 1
    omega

/-- The hash at a height and an index of the tree over the leaves, from the top down: SHA-256, taken
twice, of the left hash below and the right one. Where the level below ends after the left hash,
this one stands on both sides. -/
def ancestor? (leaves : List Hash) : Nat → Nat → Option Hash
  | 0, index => leaves[index]?
  | height + 1, index => do
    let left ← ancestor? leaves height (2 * index)
    let right ← if 2 * index + 1 < leaves.length ⌈/⌉ 2 ^ height
      then ancestor? leaves height (2 * index + 1) else ancestor? leaves height (2 * index)
    return Sha256.digest (Sha256.digest (left.toBytes ++ right.toBytes)).toBytes

/-- The levels have the hashes that are found from the top down. -/
theorem getElem?_iterate_parents (leaves : List Hash) (height index : Nat) :
    (parents^[height] leaves)[index]? = ancestor? leaves height index := by
  induction height generalizing index with
  | zero => rfl
  | succ height ih =>
    rw [Function.iterate_succ_apply', getElem?_parents, ancestor?, ← length_iterate_parents, ← ih,
      ← ih]
    cases hleft : (parents^[height] leaves)[2 * index]? with
    | none => rfl
    | some left =>
      split_ifs with hright
      · rw [List.getElem?_eq_getElem hright]
        rfl
      · rw [List.getElem?_eq_none (Nat.le_of_not_lt hright)]
        rfl

/-- Below the top of the tree every level has two hashes at least. -/
theorem one_lt_length_iterate_parents {height : Nat} (h : height < Nat.clog 2 leaves.length) :
    1 < (parents^[height] leaves).length := by
  rw [length_iterate_parents, ← Nat.not_le, ceilDiv_le_iff_le_mul (Nat.two_pow_pos height),
    Nat.mul_one, Nat.not_le]
  exact Nat.pow_lt_of_lt_clog h

/-- The root of a level is the root of every level above it. -/
theorem merkleRoot_iterate_parents {height : Nat} (h : height ≤ Nat.clog 2 leaves.length) :
    merkleRoot (parents^[height] leaves) = merkleRoot leaves := by
  induction height with
  | zero => rfl
  | succ height ih =>
    rw [Function.iterate_succ_apply', merkleRoot_parents (one_lt_length_iterate_parents h),
      ih (Nat.le_of_succ_le h)]

/-- Halving comes to an end, with the root alone. -/
theorem iterate_parents_clog (h : leaves ≠ []) :
    parents^[Nat.clog 2 leaves.length] leaves = [merkleRoot leaves] := by
  have hwidth := length_iterate_parents (Nat.clog 2 leaves.length) leaves
  have hlength : (parents^[Nat.clog 2 leaves.length] leaves).length = 1 := by
    have hpos := List.length_pos_iff.2 h
    have htop : leaves.length ≤ 2 ^ Nat.clog 2 leaves.length := Nat.le_pow_clog one_lt_two _
    rw [hwidth, Nat.ceilDiv_eq_add_pred_div]
    exact Nat.div_eq_of_lt_le (by omega) (by omega)
  obtain ⟨root, hroot⟩ := List.length_eq_one_iff.1 hlength
  have hsame := merkleRoot_iterate_parents (le_refl (Nat.clog 2 leaves.length))
  rw [hroot, merkleRoot] at hsame
  rw [hroot, hsame]

/-! ## Cuts -/

/-- A cut at an even place goes through the level above. -/
theorem merkleRoot_append_parents (heven : Even front.length) (hlong : 1 < front.length)
    (back : List Hash) :
    merkleRoot (front ++ back) = merkleRoot (parents front ++ parents back) := by
  have hboth : 1 < (front ++ back).length := by
    rw [List.length_append]
    omega
  rw [← merkleRoot_parents hboth, parents_append heven]

/-- A level of so many full trees pairs up evenly, down to their roots. -/
theorem length_parents_of_mul_two_pow {level : List Hash} {count height : Nat}
    (h : level.length = count * 2 ^ (height + 1)) :
    Even level.length ∧ (parents level).length = count * 2 ^ height := by
  have hdouble : level.length = 2 * (count * 2 ^ height) := by
    rw [h, Nat.pow_succ]
    ring
  refine ⟨hdouble ▸ even_two_mul _, ?_⟩
  rw [length_parents]
  omega

/-- A full tree and more than half of one, side by side. -/
theorem merkleRoot_append {height : Nat} (hfront : front.length = 2 ^ height)
    (hhalf : 2 ^ height < 2 * back.length) (hback : back.length ≤ 2 ^ height) :
    merkleRoot (front ++ back) = join (merkleRoot front) (merkleRoot back) := by
  induction height generalizing front back with
  | zero =>
    obtain ⟨left, rfl⟩ := List.length_eq_one_iff.1 hfront
    obtain ⟨right, rfl⟩ := List.length_eq_one_iff.1 (by omega : back.length = 1)
    simp only [List.singleton_append, merkleRoot, parents]
  | succ height ih =>
    have hpos := Nat.two_pow_pos height
    obtain ⟨heven, hparents⟩ :=
      length_parents_of_mul_two_pow (hfront.trans (Nat.one_mul _).symm)
    rw [Nat.one_mul] at hparents
    rw [Nat.pow_succ] at hfront hhalf hback
    have hlong : 1 < front.length := by omega
    have hlong' : 1 < back.length := by omega
    have hhalf' : 2 ^ height < 2 * (parents back).length := by
      rw [length_parents]
      omega
    have hback' : (parents back).length ≤ 2 ^ height := by
      rw [length_parents]
      omega
    have hroot := ih hparents hhalf' hback'
    rw [merkleRoot_append_parents heven hlong, hroot, merkleRoot_parents hlong,
      merkleRoot_parents hlong']

theorem even_and_one_lt_of_pairs {level : List Hash} {pairs height : Nat} (hpairs : 0 < pairs)
    (h : level.length = 2 * pairs * 2 ^ height) : Even level.length ∧ 1 < level.length := by
  have hpos := Nat.mul_pos hpairs (Nat.two_pow_pos height)
  rw [h, Nat.mul_assoc]
  exact ⟨even_two_mul _, by omega⟩

/-- A full tree that stands alone at the end of its level is hashed with itself. So it may as well
stand there twice, if something stands before it. -/
theorem merkleRoot_append_twice {height pairs : Nat} (hpairs : 0 < pairs)
    (hfront : front.length = 2 * pairs * 2 ^ height) (hback : back.length = 2 ^ height) :
    merkleRoot (front ++ (back ++ back)) = merkleRoot (front ++ back) := by
  induction height generalizing front back with
  | zero =>
    obtain ⟨heven, hlong⟩ := even_and_one_lt_of_pairs hpairs hfront
    obtain ⟨last, rfl⟩ := List.length_eq_one_iff.1 hback
    rw [merkleRoot_append_parents heven hlong, merkleRoot_append_parents heven hlong]
    rfl
  | succ height ih =>
    obtain ⟨heven, hlong⟩ := even_and_one_lt_of_pairs hpairs hfront
    have hfront' := (length_parents_of_mul_two_pow hfront).2
    obtain ⟨heven', hback'⟩ := length_parents_of_mul_two_pow (hback.trans (Nat.one_mul _).symm)
    rw [Nat.one_mul] at hback'
    rw [merkleRoot_append_parents heven hlong, merkleRoot_append_parents heven hlong,
      parents_append heven', ih hfront' hback']

/-! ## The whole tree -/

/-- The root is the top of the tree, at the height after which halving the leaves comes to an end
and not before. A full tree and more than half of one, side by side, have the hash of the two roots,
one after the other. -/
theorem merkleRoot_eq_ancestor (h : leaves ≠ []) :
    (∀ height < Nat.clog 2 leaves.length, 1 < (parents^[height] leaves).length) ∧
      parents^[Nat.clog 2 leaves.length] leaves = [merkleRoot leaves] ∧
      ancestor? leaves (Nat.clog 2 leaves.length) 0 = some (merkleRoot leaves) ∧
      ∀ (height : Nat) (front back : List Hash), front.length = 2 ^ height →
        2 ^ height < 2 * back.length → back.length ≤ 2 ^ height →
          merkleRoot (front ++ back) = Sha256.digest (Sha256.digest
            ((merkleRoot front).toBytes ++ (merkleRoot back).toBytes)).toBytes := by
  have htop := iterate_parents_clog h
  refine ⟨fun height ↦ one_lt_length_iterate_parents, htop, ?_, ?_⟩
  · rw [← getElem?_iterate_parents, htop]
    rfl
  · intro height front back
    exact merkleRoot_append

/-- Of thirteen leaves the first level and the second are odd. They come to one hash in four steps,
and the first eight stand beside the other five. -/
theorem merkleRoot_eq_ancestor_thirteen :
    let leaves : List Hash := (List.range 13).map fun number ↦ double [UInt8.ofNat number]
    leaves ≠ [] ∧ (∀ height < 4, 1 < (parents^[height] leaves).length) ∧
      parents^[4] leaves = [merkleRoot leaves] ∧
      ancestor? leaves 4 0 = some (merkleRoot leaves) ∧
      merkleRoot leaves = Sha256.digest (Sha256.digest ((merkleRoot (leaves.take 8)).toBytes ++
        (merkleRoot (leaves.drop 8)).toBytes)).toBytes := by
  intro leaves
  have hleaves : leaves ≠ [] := List.cons_ne_nil _ _
  have hheight : Nat.clog 2 leaves.length = 4 := by decide
  obtain ⟨hlong, htop, hroot, hcut⟩ := merkleRoot_eq_ancestor hleaves
  rw [hheight] at hlong htop hroot
  refine ⟨hleaves, hlong, htop, hroot, ?_⟩
  rw [← hcut 3 _ _ (by decide) (by decide) (by decide), List.take_append_drop]

end CoinWire.Hash
