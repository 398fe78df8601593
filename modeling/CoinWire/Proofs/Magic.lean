import Mathlib
import CoinWire.Stream

/-!
# Where a magic lies

The first magic of a byte string is at the least offset from which the bytes begin with it. A magic
that was found is found at the same offset when more bytes follow, and bytes in which none begins
can be dropped without losing one, up to the last three.
-/

namespace CoinWire.Framer

variable (framer : Framer) {bytes : Bytes}

/-- The bytes begin with the magic. -/
def Opens (bytes : Bytes) : Prop :=
  framer.params.magic.toBytes <+: bytes

instance : Decidable (framer.Opens bytes) :=
  inferInstanceAs (Decidable (_ <+: _))

theorem length_magic : framer.params.magic.toBytes.length = 4 :=
  framer.params.magic.length_toBytes

theorem four_le_of_opens (h : framer.Opens bytes) : 4 ≤ bytes.length := by
  have hle := h.length_le
  rwa [framer.length_magic] at hle

/-- Only the first four bytes count. -/
theorem opens_append_iff (h : 4 ≤ bytes.length) (more : Bytes) :
    framer.Opens (bytes ++ more) ↔ framer.Opens bytes := by
  have hlength : framer.params.magic.toBytes.length ≤ bytes.length := by
    rwa [framer.length_magic]
  constructor
  · intro hopens
    exact List.prefix_of_prefix_length_le hopens (List.prefix_append bytes more) hlength
  · intro hopens
    exact hopens.trans (List.prefix_append bytes more)

theorem opens_drop_append_iff {offset : Nat} (h : offset + 4 ≤ bytes.length) (more : Bytes) :
    framer.Opens ((bytes ++ more).drop offset) ↔ framer.Opens (bytes.drop offset) := by
  have hlength : 4 ≤ (bytes.drop offset).length := by
    rw [List.length_drop]
    omega
  rw [List.drop_append_of_le_length (by omega)]
  exact framer.opens_append_iff hlength more

/-! ## The search -/

theorem findFrom?_succ (magic : Magic) (index : Nat) (bytes : Bytes) :
    findFrom? magic (index + 1) bytes = (findFrom? magic index bytes).map (· + 1) := by
  induction bytes generalizing index with
  | nil => rfl
  | cons byte rest ih =>
    unfold findFrom?
    split
    · rfl
    · exact ih (index + 1)

@[simp]
theorem findMagic?_nil : framer.findMagic? [] = none := rfl

theorem findMagic?_of_opens (h : framer.Opens bytes) : framer.findMagic? bytes = some 0 := by
  cases bytes with
  | nil => exact absurd (framer.four_le_of_opens h) (by decide)
  | cons byte rest =>
    unfold findMagic? findFrom?
    rw [if_pos (List.isPrefixOf_iff_prefix.2 h)]

theorem findMagic?_cons {byte : UInt8} {rest : Bytes} (h : ¬framer.Opens (byte :: rest)) :
    framer.findMagic? (byte :: rest) = (framer.findMagic? rest).map (· + 1) := by
  have hprefix : ¬framer.params.magic.toBytes.isPrefixOf (byte :: rest) = true := by
    rwa [List.isPrefixOf_iff_prefix]
  unfold findMagic?
  rw [findFrom?, if_neg hprefix]
  exact findFrom?_succ _ 0 rest

/-- Offsets at which no magic begins can be left out of the search. -/
theorem findMagic?_drop {count : Nat} (h : ∀ offset < count, ¬framer.Opens (bytes.drop offset)) :
    framer.findMagic? bytes = (framer.findMagic? (bytes.drop count)).map (· + count) := by
  induction count generalizing bytes with
  | zero => simp
  | succ count ih =>
    cases bytes with
    | nil => simp
    | cons byte rest =>
      have hfirst : ¬framer.Opens (byte :: rest) := h 0 (Nat.succ_pos count)
      have hrest (offset : Nat) (hoffset : offset < count) :
          ¬framer.Opens (rest.drop offset) := h (offset + 1) (Nat.succ_lt_succ hoffset)
      rw [findMagic?_cons framer hfirst, ih hrest, Option.map_map]
      rfl

theorem findMagic?_eq_none_iff :
    framer.findMagic? bytes = none ↔ ∀ offset, ¬framer.Opens (bytes.drop offset) := by
  constructor
  · intro hnone offset hopens
    induction bytes generalizing offset with
    | nil =>
      rw [List.drop_nil] at hopens
      exact absurd (framer.four_le_of_opens hopens) (by decide)
    | cons byte rest ih =>
      have hfirst : ¬framer.Opens (byte :: rest) := by
        intro hfirst
        rw [findMagic?_of_opens framer hfirst] at hnone
        contradiction
      rw [findMagic?_cons framer hfirst, Option.map_eq_none_iff] at hnone
      cases offset with
      | zero => exact hfirst hopens
      | succ offset => exact ih hnone offset hopens
  · intro hnever
    have hbefore : ∀ offset < bytes.length, ¬framer.Opens (bytes.drop offset) :=
      fun offset _ ↦ hnever offset
    simpa using framer.findMagic?_drop hbefore

theorem findMagic?_eq_some_iff {index : Nat} :
    framer.findMagic? bytes = some index ↔
      framer.Opens (bytes.drop index) ∧
        ∀ offset < index, ¬framer.Opens (bytes.drop offset) := by
  constructor
  · intro hfound
    induction bytes generalizing index with
    | nil => contradiction
    | cons byte rest ih =>
      by_cases hfirst : framer.Opens (byte :: rest)
      · rw [findMagic?_of_opens framer hfirst] at hfound
        injection hfound with hindex
        subst hindex
        exact ⟨hfirst, fun offset hoffset ↦ absurd hoffset (Nat.not_lt_zero offset)⟩
      · rw [findMagic?_cons framer hfirst] at hfound
        obtain ⟨before, hbefore, rfl⟩ := Option.map_eq_some_iff.1 hfound
        obtain ⟨hopens, hearlier⟩ := ih hbefore
        refine ⟨hopens, ?_⟩
        intro offset hoffset
        cases offset with
        | zero => exact hfirst
        | succ offset => exact hearlier offset (Nat.lt_of_succ_lt_succ hoffset)
  · intro hfirst
    rw [findMagic?_drop framer hfirst.2, findMagic?_of_opens framer hfirst.1]
    simp

/-- A magic that was found is whole. -/
theorem add_four_le_of_findMagic? {index : Nat} (h : framer.findMagic? bytes = some index) :
    index + 4 ≤ bytes.length := by
  have hroom := framer.four_le_of_opens (framer.findMagic?_eq_some_iff.1 h).1
  rw [List.length_drop] at hroom
  omega

/-- More bytes put no magic before the first one. -/
theorem findMagic?_append {index : Nat} (h : framer.findMagic? bytes = some index)
    (more : Bytes) : framer.findMagic? (bytes ++ more) = some index := by
  have hroom := framer.add_four_le_of_findMagic? h
  obtain ⟨hopens, hearlier⟩ := framer.findMagic?_eq_some_iff.1 h
  rw [findMagic?_eq_some_iff, framer.opens_drop_append_iff hroom]
  refine ⟨hopens, ?_⟩
  intro offset hoffset
  rw [framer.opens_drop_append_iff (by omega)]
  exact hearlier offset hoffset

/-- Nothing behind the first magic is needed to find it. -/
theorem findMagic?_take {index : Nat} (h : framer.findMagic? bytes = some index) :
    framer.findMagic? (bytes.take (index + 4)) = some index ∧
      (bytes.take (index + 4)).drop index = framer.params.magic.toBytes := by
  obtain ⟨hopens, hearlier⟩ := framer.findMagic?_eq_some_iff.1 h
  have hmagic := List.prefix_iff_eq_take.1 hopens
  rw [framer.length_magic] at hmagic
  have hdrop : (bytes.take (index + 4)).drop index = framer.params.magic.toBytes := by
    rw [List.drop_take, Nat.add_sub_cancel_left]
    exact hmagic.symm
  refine ⟨framer.findMagic?_eq_some_iff.2 ⟨?_, ?_⟩, hdrop⟩
  · rw [hdrop]
    exact List.prefix_rfl
  · intro offset hoffset hearly
    exact hearlier offset hoffset (hearly.trans ((List.take_prefix _ _).drop offset))

/-- Where no magic was found, one that is completed by more bytes begins in the last three. -/
theorem not_opens_drop_append (h : framer.findMagic? bytes = none) (more : Bytes) {offset : Nat}
    (hoffset : offset < bytes.length - 3) : ¬framer.Opens ((bytes ++ more).drop offset) := by
  rw [framer.opens_drop_append_iff (by omega)]
  exact framer.findMagic?_eq_none_iff.1 h offset

end CoinWire.Framer
