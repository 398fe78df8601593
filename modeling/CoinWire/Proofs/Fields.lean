import Mathlib
import CoinWire.Message
import CoinWire.Proofs.Reading

/-!
# Reads that check

Some reads refuse what they have read: a count past a limit, a number that names nothing. A check
takes no bytes, so what such a read accepts is the encoding of the values that pass. With it the
payload fields of messages have the same law as plain fields.
-/

namespace CoinWire

namespace Read

variable {α β γ δ : Type}

/-! ## Checks -/

namespace Accepts

variable {read : Read β} {make : γ → β} {Fits : γ → Prop} {wire : γ → Bytes}

/-- A read that is only made if a condition holds. -/
theorem guard {p : Prop} [Decidable p] (h : Accepts read make Fits wire) (e : CodecError) :
    Accepts (if p then read else throw e) make (fun c ↦ p ∧ Fits c) wire := by
  intro reader b reader'
  by_cases hp : p
  · rw [if_pos hp, h reader b reader']
    simp [hp]
  · rw [if_neg hp]
    constructor
    · intro hread
      contradiction
    · rintro ⟨c, ⟨hc, -⟩, -⟩
      contradiction

/-- An outcome that does not depend on the bytes ahead. -/
theorem ofExcept (outcome : Except CodecError γ) :
    Accepts (MonadExcept.ofExcept outcome) id (fun c ↦ outcome = .ok c) (fun _ ↦ []) := by
  intro reader c reader'
  rw [Access.ofExcept_apply]
  cases outcome with
  | error e => simp
  | ok c => simp [Reader.advance_zero, eq_comm]

/-- A read whose answer is changed by `f`, its values named by what was read. -/
theorem answer {read : Read γ} (h : Accepts read id Fits wire) (f : γ → δ) :
    Accepts (do return f (← read)) f Fits wire := by
  apply (h.bind fun c ↦ Accepts.pure (f c)).reindex fun c ↦ (c, ())
  · intro c
    rfl
  · intro c
    simp
  · intro c _
    simp
  · rintro ⟨c, _⟩ _
    exact ⟨c, rfl⟩

end Accepts

/-- A field of which it is known beforehand whether it is there. -/
def present (there : Bool) (field : Read α) : Read (Option α) :=
  if there then some <$> field else pure none

/-- An optional field is accepted where it is announced, and is empty elsewhere. -/
theorem accepts_present {read : Read γ} {wire : γ → Bytes}
    (h : Accepts read id (fun _ ↦ True) wire) (there : Bool) :
    Accepts (present there read) id (fun field ↦ field.isSome = there)
      (fun field ↦ (field.map wire).getD []) := by
  unfold present
  cases there with
  | false =>
    intro reader field reader'
    change (pure none : Read (Option γ)) reader = _ ↔ _
    rw [Accepts.pure none reader field reader']
    constructor
    · rintro ⟨_, -, rfl, hahead⟩
      exact ⟨none, rfl, rfl, hahead⟩
    · rintro ⟨field', hnone, rfl, hahead⟩
      rw [Option.isSome_eq_false_iff, Option.isNone_iff_eq_none] at hnone
      subst hnone
      exact ⟨(), trivial, rfl, hahead⟩
  | true =>
    have hmap : some <$> read = do return some (← read) := map_eq_pure_bind some read
    rw [if_pos rfl, hmap]
    apply h.map some
    · intro c _
      exact ⟨rfl, rfl⟩
    · intro field hfield
      obtain ⟨c, rfl⟩ := Option.isSome_iff_exists.1 hfield
      exact ⟨c, trivial, rfl⟩

/-! ## Fields of fixed width -/

theorem accepts_byte : Accepts byte id (fun _ ↦ True) fun value ↦ [value] := by
  apply (accepts_bytes 1).map fun found ↦ UInt8.ofNat (Bytes.ofLittleEndian found)
  · intro found hfound
    obtain ⟨value, rfl⟩ := List.length_eq_one_iff.1 hfound
    exact ⟨trivial, by simp [Bytes.ofLittleEndian]⟩
  · intro value _
    exact ⟨[value], rfl, by simp [Bytes.ofLittleEndian]⟩

theorem accepts_port : Accepts port id (fun _ ↦ True) Bytes.ofPort := by
  apply (accepts_bytes 2).map fun found ↦ UInt16.ofNat (Bytes.ofLittleEndian found.reverse)
  · intro found hfound
    have hlt := Bytes.ofLittleEndian_lt found.reverse
    have hback := Bytes.littleEndian_ofLittleEndian found.reverse
    rw [List.length_reverse, hfound] at hlt hback
    refine ⟨trivial, ?_⟩
    rw [Bytes.ofPort, UInt16.toNat_ofNat_of_lt' hlt, hback, List.reverse_reverse]
    rfl
  · intro value _
    refine ⟨Bytes.ofPort value, Bytes.length_ofPort value, ?_⟩
    have hlt : value.toNat < 256 ^ 2 := value.toNat_lt
    rw [Bytes.ofPort, List.reverse_reverse, Bytes.ofLittleEndian_littleEndian,
      Nat.mod_eq_of_lt hlt, UInt16.ofNat_toNat]

/-! ## Lists with a limit -/

/-- A repetition finds as many items as it was asked for. -/
theorem length_eq_of_times {item : Read α} {count : Nat} {reader reader' : Reader}
    {found : List α} (h : times count item reader = .ok found reader') : found.length = count := by
  induction count generalizing reader reader' found with
  | zero =>
    injection h with hfound
    rw [← hfound]
    rfl
  | succ count ih =>
    rw [times_succ_eq_bind] at h
    obtain ⟨first, middle, -, hrest⟩ := Access.bind_eq_ok_iff.1 h
    obtain ⟨others, middle', hothers, hlast⟩ := Access.bind_eq_ok_iff.1 hrest
    injection hlast with hfound
    rw [← hfound, List.length_cons, ih hothers]

/-- A count with a limit, and that many items. -/
def limited (limit minSize : Nat) (what : String) (item : Read α) : Read (List α) := do
  times (← countUpTo limit minSize what) item

/-- The limit only turns lists away. -/
theorem limited_eq_ok_iff {limit minSize : Nat} {what : String} {item : Read α}
    {reader reader' : Reader} {found : List α} :
    limited limit minSize what item reader = .ok found reader' ↔
      counted minSize what item reader = .ok found reader' ∧ found.length ≤ limit := by
  unfold limited counted countUpTo
  rw [bind_assoc, Access.bind_eq_ok_iff, Access.bind_eq_ok_iff]
  constructor
  · rintro ⟨count, middle, hcount, h⟩
    by_cases hlimit : count ≤ limit
    · rw [if_pos hlimit, pure_bind] at h
      exact ⟨⟨count, middle, hcount, h⟩, length_eq_of_times h ▸ hlimit⟩
    · rw [if_neg hlimit] at h
      contradiction
  · rintro ⟨⟨count, middle, hcount, h⟩, hlimit⟩
    rw [length_eq_of_times h] at hlimit
    exact ⟨count, middle, hcount, by rwa [if_pos hlimit, pure_bind]⟩

/-- A list within the limit is accepted, if no item is shorter than the least size that counts are
judged by. -/
theorem accepts_limited {item : Read α} {Fits : α → Prop} {wire : α → Bytes}
    (h : Accepts item id Fits wire) {limit minSize : Nat} (what : String)
    (hlimit : limit < 2 ^ 64) (hsize : ∀ a, Fits a → max minSize 1 ≤ (wire a).length) :
    Accepts (limited limit minSize what item) id
      (fun found ↦ found.length ≤ limit ∧ ∀ a ∈ found, Fits a) (Message.list wire) := by
  intro reader found reader'
  rw [limited_eq_ok_iff, (accepts_counted h what hsize).eq_ok_iff]
  constructor
  · rintro ⟨⟨⟨-, hfits⟩, hahead⟩, hlength⟩
    exact ⟨found, ⟨hlength, hfits⟩, rfl, hahead⟩
  · rintro ⟨found, ⟨hlength, hfits⟩, rfl, hahead⟩
    exact ⟨⟨⟨hlength.trans_lt hlimit, hfits⟩, hahead⟩, hlength⟩

end Read

open Read

/-! ## Peers, inventory and locators -/

/-- The reader of peers accepts their encodings, with a time or without as it is asked for. -/
theorem PeerAddress.accepts_read (timed : Bool) :
    Accepts (PeerAddress.read timed) id (fun peer ↦ peer.time.isSome = timed) wire := by
  have hread : PeerAddress.read timed = do
      let time ← present timed uint32
      let services ← uint64
      let ip ← take 16
      let port ← Read.port
      return ⟨time, services, ip, port⟩ := by
    cases timed <;> rfl
  have h := (accepts_present accepts_uint32 timed).bind fun time ↦
    accepts_uint64.bind fun services ↦ (accepts_take 16).bind fun ip ↦
    accepts_port.bind fun port ↦ Accepts.pure (PeerAddress.mk time services ip port)
  rw [hread]
  apply h.reindex fun peer ↦ (peer.time, peer.services, peer.ip, peer.port, ())
  · intro peer
    rfl
  · intro peer
    simp
  · intro peer _
    simp [wire]
  · rintro ⟨time, services, ip, port, _⟩ _
    exact ⟨⟨time, services, ip, port⟩, rfl⟩

theorem PeerAddress.length_wire (peer : PeerAddress) : peer.wire.length = peer.encodedLength := by
  unfold wire encodedLength
  cases peer.time <;> simp [peer.ip.length_toBytes, size, timedSize]

/-- The number of a kind is read as that kind, and no other number is. -/
theorem InventoryKind.ofUInt32_eq_ok_iff {value : UInt32} {kind : InventoryKind} :
    ofUInt32 value = .ok kind ↔ kind.toUInt32 = value := by
  unfold ofUInt32
  constructor
  · intro h
    split_ifs at h with h0 h1 h2 h3 <;> injection h with hkind <;> subst hkind <;>
      exact Eq.symm ‹_›
  · rintro rfl
    cases kind <;> rfl

theorem InventoryItem.accepts_read : Accepts InventoryItem.read id (fun _ ↦ True) wire := by
  have h := accepts_uint32.bind fun value ↦
    (Accepts.ofExcept (InventoryKind.ofUInt32 value)).bind fun kind ↦
    (accepts_take 32).bind fun hash ↦ Accepts.pure (InventoryItem.mk kind hash)
  apply h.reindex fun item ↦ (item.kind.toUInt32, item.kind, item.hash, ())
  · intro item
    rfl
  · intro item
    simp [InventoryKind.ofUInt32_eq_ok_iff]
  · intro item _
    simp [wire]
  · rintro ⟨value, kind, hash, _⟩ ⟨-, hkind, -⟩
    rw [InventoryKind.ofUInt32_eq_ok_iff] at hkind
    exact ⟨⟨kind, hash⟩, by rw [hkind]⟩

theorem InventoryItem.length_wire (item : InventoryItem) : item.wire.length = size := by
  simp [wire, item.hash.length_toBytes, size]

/-- The reader of locators accepts the encodings of locators within the limit and nothing else. -/
theorem Locator.accepts_read :
    Accepts Locator.read id (fun locator ↦ locator.hashes.length ≤ maxHashes) wire := by
  have hhashes : Accepts (limited maxHashes 32 "locator hash" (take 32)) id
      (fun hashes ↦ hashes.length ≤ maxHashes ∧ ∀ hash ∈ hashes, True)
      (Message.list Octets.toBytes) := by
    apply accepts_limited (accepts_take 32) _ (by decide)
    intro hash _
    rw [hash.length_toBytes]
    decide
  have hread : Locator.read = do
      let version ← uint32
      let hashes ← limited maxHashes 32 "locator hash" (take 32)
      let stop ← take 32
      return ⟨version, hashes, stop⟩ := by
    simp only [limited, bind_assoc]
    rfl
  have h := accepts_uint32.bind fun version ↦ hhashes.bind fun hashes ↦
    (accepts_take 32).bind fun stop ↦ Accepts.pure (Locator.mk version hashes stop)
  rw [hread]
  apply h.reindex fun locator ↦ (locator.version, locator.hashes, locator.stop, ())
  · intro locator
    rfl
  · intro locator
    simp
  · intro locator _
    simp [wire, Message.list]
  · rintro ⟨version, hashes, stop, _⟩ _
    exact ⟨⟨version, hashes, stop⟩, rfl⟩

end CoinWire
