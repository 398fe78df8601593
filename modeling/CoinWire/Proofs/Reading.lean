import Mathlib
import CoinWire.Proofs.VarInt
import CoinWire.Reader

/-!
# What a read accepts

A read accepts a format when it succeeds exactly on the byte strings that begin with the encoding
of an admissible value, answers that value, and moves the cursor to the end of the encoding. The
definition is an equivalence, so it holds the round trip and the rejection of everything else at
once. Reads are sequences of smaller reads, and so are the laws: each combinator has one lemma.
-/

namespace CoinWire

theorem List.append_isPrefix_iff {α : Type} {front back whole : List α} :
    front ++ back <+: whole ↔ front <+: whole ∧ back <+: whole.drop front.length := by
  constructor
  · rintro ⟨rest, rfl⟩
    simp [List.append_assoc]
  · rintro ⟨⟨rest, rfl⟩, hback⟩
    simpa using hback

/-! ## The bytes that were passed -/

namespace Reader

theorem sliceFrom_zero_advance (count : Nat) (source : Bytes) :
    ((ofBytes source).advance count).sliceFrom 0 = source.take count :=
  sliceFrom_advance count (ofBytes source)

/-- What was passed and what lies ahead are the byte string. -/
theorem sliceFrom_append_ahead (count : Nat) (source : Bytes) :
    ((ofBytes source).advance count).sliceFrom 0 ++ ((ofBytes source).advance count).ahead =
      source := by
  rw [sliceFrom_zero_append_ahead, buffer_advance]
  rfl

end Reader

/-! ## Reads and formats -/

namespace Read

variable {α β γ δ : Type}

/-- `read` succeeds exactly where an admissible encoding `wire c` lies ahead. It answers `make c`
and moves over the encoding. -/
def Accepts (read : Read β) (make : γ → β) (Fits : γ → Prop) (wire : γ → Bytes) : Prop :=
  ∀ reader b reader', read reader = .ok b reader' ↔
    ∃ c, Fits c ∧ make c = b ∧ wire c <+: reader.ahead ∧
      reader' = reader.advance (wire c).length

namespace Accepts

variable {read : Read β} {make : γ → β} {Fits : γ → Prop} {wire : γ → Bytes}

/-- A read of plain values answers the value whose encoding lies ahead. -/
theorem eq_ok_iff {read : Read γ} (h : Accepts read id Fits wire) {reader reader' : Reader}
    {c : γ} : read reader = .ok c reader' ↔
      Fits c ∧ wire c <+: reader.ahead ∧ reader' = reader.advance (wire c).length := by
  rw [h reader c reader']
  constructor
  · rintro ⟨c, hc, rfl, hwire⟩
    exact ⟨hc, hwire⟩
  · rintro ⟨hc, hwire⟩
    exact ⟨c, hc, rfl, hwire⟩

/-- At most one admissible encoding lies at the front of a byte string. -/
theorem unique {read : Read γ} (h : Accepts read id Fits wire) {c d : γ} {bytes : Bytes}
    (hc : Fits c) (hd : Fits d) (hcb : wire c <+: bytes) (hdb : wire d <+: bytes) : c = d := by
  let reader := Reader.ofBytes bytes
  have hreadc : read reader = _ := h.eq_ok_iff.2 ⟨hc, hcb, rfl⟩
  have hreadd : read reader = _ := h.eq_ok_iff.2 ⟨hd, hdb, rfl⟩
  rw [hreadc] at hreadd
  injection hreadd

/-- The bytes that a read of plain values has passed are the encoding of its answer. -/
theorem sliceFrom_eq {read : Read γ} (h : Accepts read id Fits wire) {reader reader' : Reader}
    {c : γ} (hread : read reader = .ok c reader') :
    reader'.sliceFrom reader.position = wire c := by
  obtain ⟨-, hahead, rfl⟩ := h.eq_ok_iff.1 hread
  rw [Reader.sliceFrom_advance, ← List.prefix_iff_eq_take.1 hahead]

theorem pure (b : β) : Accepts (pure b) (fun _ : Unit ↦ b) (fun _ ↦ True) (fun _ ↦ []) := by
  intro reader b' reader'
  rw [Access.pure_apply]
  simp [Reader.advance_zero, eq_comm]

/-- Two reads in a row, the second of which may depend on what the first answered. -/
theorem bind {ε : Type} {read : Read γ} {next : γ → Read δ} {make : γ → ε → δ}
    {Fits' : γ → ε → Prop} {wire' : γ → ε → Bytes} (h : Accepts read id Fits wire)
    (hnext : ∀ c, Accepts (next c) (make c) (Fits' c) (wire' c)) :
    Accepts (read >>= next) (fun pair : γ × ε ↦ make pair.1 pair.2)
      (fun pair ↦ Fits pair.1 ∧ Fits' pair.1 pair.2)
      (fun pair ↦ wire pair.1 ++ wire' pair.1 pair.2) := by
  intro reader d reader'
  rw [Access.bind_apply]
  constructor
  · intro hd
    cases hread : read reader with
    | error e middle => rw [hread] at hd; contradiction
    | ok c middle =>
      rw [hread] at hd
      obtain ⟨hc, hwire, rfl⟩ := h.eq_ok_iff.1 hread
      obtain ⟨c', hc', rfl, hwire', rfl⟩ := (hnext c _ d reader').1 hd
      refine ⟨(c, c'), ⟨hc, hc'⟩, rfl, List.append_isPrefix_iff.2 ⟨hwire, hwire'⟩, ?_⟩
      rw [List.length_append, Reader.advance_advance]
  · rintro ⟨⟨c, c'⟩, ⟨hc, hc'⟩, rfl, hwire, rfl⟩
    obtain ⟨hfront, hback⟩ := List.append_isPrefix_iff.1 hwire
    rw [h.eq_ok_iff.2 ⟨hc, hfront, rfl⟩, List.length_append, ← Reader.advance_advance]
    exact (hnext c _ _ _).2 ⟨c', hc', rfl, hback, rfl⟩

/-- The same format, its values named in another way. -/
theorem reindex {make' : δ → β} {Fits' : δ → Prop} {wire' : δ → Bytes}
    (h : Accepts read make Fits wire) (name : δ → γ) (hmake : ∀ d, make (name d) = make' d)
    (hFits : ∀ d, Fits (name d) ↔ Fits' d) (hwire : ∀ d, Fits' d → wire (name d) = wire' d)
    (hname : ∀ c, Fits c → ∃ d, name d = c) : Accepts read make' Fits' wire' := by
  intro reader b reader'
  rw [h reader b reader']
  constructor
  · rintro ⟨c, hc, rfl, hahead⟩
    obtain ⟨d, rfl⟩ := hname c hc
    have hd := (hFits d).1 hc
    rw [hwire d hd] at hahead
    exact ⟨d, hd, (hmake d).symm, hahead⟩
  · rintro ⟨d, hd, rfl, hahead⟩
    rw [← hwire d hd] at hahead
    exact ⟨name d, (hFits d).2 hd, hmake d, hahead⟩

/-- A read whose answer is changed by `f`, which leaves the encoding alone. -/
theorem map {read : Read γ} {Fits' : δ → Prop} {wire' : δ → Bytes}
    (h : Accepts read id Fits wire) (f : γ → δ)
    (hf : ∀ c, Fits c → Fits' (f c) ∧ wire' (f c) = wire c)
    (hsurj : ∀ d, Fits' d → ∃ c, Fits c ∧ f c = d) :
    Accepts (do return f (← read)) id Fits' wire' := by
  have hpair := h.bind fun c ↦ Accepts.pure (f c)
  intro reader d reader'
  refine (hpair reader d reader').trans ?_
  constructor
  · rintro ⟨⟨c, _⟩, ⟨hc, -⟩, rfl, hahead⟩
    obtain ⟨hfc, hwire⟩ := hf c hc
    simp only [List.append_nil, ← hwire] at hahead
    exact ⟨f c, hfc, rfl, hahead⟩
  · rintro ⟨d, hd, rfl, hahead⟩
    obtain ⟨c, hc, rfl⟩ := hsurj d hd
    rw [(hf c hc).2] at hahead
    refine ⟨(c, ()), ⟨hc, trivial⟩, rfl, ?_⟩
    simpa only [List.append_nil] using hahead

end Accepts

/-! ## Fields of fixed width -/

theorem accepts_take (count : Nat) :
    Accepts (take count) id (fun _ ↦ True) Octets.toBytes := by
  intro reader octets reader'
  rw [take_apply]
  constructor
  · intro h
    split_ifs at h with hlength
    injection h with hoctets hreader
    subst hoctets hreader
    exact ⟨_, trivial, rfl, List.take_prefix _ _, by rw [List.length_take_of_le hlength]⟩
  · rintro ⟨octets, -, rfl, hahead, rfl⟩
    have htake : reader.ahead.take count = octets.toBytes := by
      have h := List.prefix_iff_eq_take.1 hahead
      rw [octets.length_toBytes] at h
      exact h.symm
    have hlength : count ≤ reader.remaining := octets.length_toBytes ▸ hahead.length_le
    rw [dif_pos hlength, octets.length_toBytes]
    congr 1
    exact Octets.ext htake

theorem accepts_bytes (count : Nat) :
    Accepts (bytes count) id (fun found ↦ found.length = count) id := by
  apply (accepts_take count).map Octets.toBytes
  · intro octets _
    exact ⟨octets.length_toBytes, rfl⟩
  · intro found hfound
    exact ⟨⟨found, hfound⟩, trivial, rfl⟩

theorem accepts_uint32 : Accepts uint32 id (fun _ ↦ True) Bytes.ofUInt32 := by
  apply (accepts_bytes 4).map fun found ↦ UInt32.ofNat (Bytes.ofLittleEndian found)
  · intro found hfound
    have hlt := Bytes.ofLittleEndian_lt found
    have hback := Bytes.littleEndian_ofLittleEndian found
    rw [hfound] at hlt hback
    refine ⟨trivial, ?_⟩
    rw [Bytes.ofUInt32, UInt32.toNat_ofNat_of_lt' hlt, hback]
    rfl
  · intro value _
    refine ⟨Bytes.ofUInt32 value, Bytes.length_ofUInt32 value, ?_⟩
    have hlt : value.toNat < 256 ^ 4 := value.toNat_lt
    rw [Bytes.ofUInt32, Bytes.ofLittleEndian_littleEndian, Nat.mod_eq_of_lt hlt,
      UInt32.ofNat_toNat]

theorem accepts_uint64 : Accepts uint64 id (fun _ ↦ True) Bytes.ofUInt64 := by
  apply (accepts_bytes 8).map fun found ↦ UInt64.ofNat (Bytes.ofLittleEndian found)
  · intro found hfound
    have hlt := Bytes.ofLittleEndian_lt found
    have hback := Bytes.littleEndian_ofLittleEndian found
    rw [hfound] at hlt hback
    refine ⟨trivial, ?_⟩
    rw [Bytes.ofUInt64, UInt64.toNat_ofNat_of_lt' hlt, hback]
    rfl
  · intro value _
    refine ⟨Bytes.ofUInt64 value, Bytes.length_ofUInt64 value, ?_⟩
    have hlt : value.toNat < 256 ^ 8 := value.toNat_lt
    rw [Bytes.ofUInt64, Bytes.ofLittleEndian_littleEndian, Nat.mod_eq_of_lt hlt,
      UInt64.ofNat_toNat]

theorem accepts_int64 : Accepts int64 id (fun _ ↦ True) Bytes.ofInt64 := by
  apply accepts_uint64.map UInt64.toInt64
  · intro value _
    exact ⟨trivial, rfl⟩
  · intro value _
    exact ⟨value.toUInt64, trivial, rfl⟩

/-! ## Counts and lengths -/

theorem accepts_varInt : Accepts varInt id (fun _ ↦ True) VarInt.encode := by
  intro reader value reader'
  unfold varInt
  constructor
  · intro h
    cases hdecode : VarInt.decode reader.ahead with
    | error e => rw [hdecode] at h; contradiction
    | ok found =>
      rw [hdecode] at h
      injection h with hvalue hreader
      obtain ⟨hahead, hused⟩ := VarInt.decode_eq_ok_iff.1 hdecode
      refine ⟨found.1, trivial, hvalue, hahead, ?_⟩
      rw [← hreader, hused, VarInt.length_encode]
  · rintro ⟨value, -, rfl, hahead, rfl⟩
    rw [VarInt.decode_eq_ok_iff.2 ⟨hahead, rfl⟩, VarInt.length_encode]
    rfl

/-- Lengths of 64 bits are what a count on the wire can say. -/
def Countable {α : Type} (list : List α) : Prop :=
  list.length < 2 ^ 64

theorem toNat_ofNat_length {list : List α} (h : Countable list) :
    (UInt64.ofNat list.length).toNat = list.length :=
  UInt64.toNat_ofNat_of_lt' h

theorem countable_of_length {list : List α} {count : UInt64} (h : list.length = count.toNat) :
    Countable list ∧ UInt64.ofNat list.length = count := by
  constructor
  · rw [Countable, h]
    exact count.toNat_lt
  · rw [h, UInt64.ofNat_toNat]

theorem accepts_countedBytes :
    Accepts countedBytes id Countable Bytes.counted := by
  have h := accepts_varInt.bind fun length ↦ accepts_bytes length.toNat
  apply h.reindex fun found ↦ (UInt64.ofNat found.length, found)
  · intro found
    rfl
  · intro found
    simp only [true_and]
    constructor
    · intro hlength
      exact (countable_of_length hlength).1
    · intro hfound
      exact (toNat_ofNat_length hfound).symm
  · intro found _
    rfl
  · rintro ⟨length, found⟩ ⟨-, hlength⟩
    exact ⟨found, by rw [(countable_of_length hlength).2]⟩

/-! ## Repetition -/

theorem times_succ_eq_bind (count : Nat) (item : Read α) :
    times (count + 1) item = do
      let first ← item
      let others ← times count item
      return first :: others := by
  funext reader
  rw [times_succ, Access.bind_apply]
  cases item reader with
  | error e middle => rfl
  | ok first middle =>
    dsimp only
    rw [Access.bind_apply]
    cases times count item middle <;> rfl

theorem accepts_times {item : Read α} {Fits : α → Prop} {wire : α → Bytes}
    (h : Accepts item id Fits wire) (count : Nat) :
    Accepts (times count item) id (fun found ↦ found.length = count ∧ ∀ a ∈ found, Fits a)
      (List.flatMap wire) := by
  induction count with
  | zero =>
    intro reader found reader'
    rw [times_zero]
    constructor
    · intro hread
      injection hread with hfound hreader
      subst hfound hreader
      exact ⟨[], ⟨rfl, by simp⟩, rfl, List.nil_prefix, rfl⟩
    · rintro ⟨found, ⟨hlength, -⟩, rfl, -, rfl⟩
      rw [List.length_eq_zero_iff.1 hlength]
      rfl
  | succ count ih =>
    rw [times_succ_eq_bind]
    have hpair := h.bind fun first ↦ ih.bind fun others ↦ Accepts.pure (first :: others)
    intro reader found reader'
    refine (hpair reader found reader').trans ?_
    constructor
    · rintro ⟨⟨first, others, _⟩, ⟨hfirst, ⟨hlength, hothers⟩, -⟩, rfl, hahead⟩
      refine ⟨first :: others, ⟨by simp [hlength], ?_⟩, rfl, ?_⟩
      · simpa [hfirst] using hothers
      · simpa only [List.append_nil, List.flatMap_cons] using hahead
    · rintro ⟨found, ⟨hlength, hfits⟩, rfl, hahead⟩
      cases found with
      | nil => simp at hlength
      | cons first others =>
        refine ⟨(first, others, ()), ⟨hfits first (by simp), ⟨by simpa using hlength, ?_⟩,
          trivial⟩, rfl, ?_⟩
        · exact fun a ha ↦ hfits a (List.mem_cons_of_mem _ ha)
        · simpa only [List.append_nil, List.flatMap_cons] using hahead

/-- Items take at least as many bytes as a lower bound for each says. -/
theorem le_length_flatMap {wire : α → Bytes} {size : Nat} {items : List α}
    (h : ∀ a ∈ items, size ≤ (wire a).length) :
    items.length * size ≤ (items.flatMap wire).length := by
  induction items with
  | nil => simp
  | cons first others ih =>
    have hfirst := h first (by simp)
    have hothers := ih fun a ha ↦ h a (List.mem_cons_of_mem _ ha)
    rw [List.length_cons, List.flatMap_cons, List.length_append, Nat.succ_mul]
    omega

theorem count_apply (minSize : Nat) (what : String) (reader : Reader) :
    count minSize what reader =
      match varInt reader with
      | .ok value reader' =>
        if reader'.ahead.holds (value.toNat * max minSize 1) then .ok value.toNat reader'
        else .error (.violation (.excessiveCount what value reader'.remaining)) reader'
      | .error e reader' => .error e reader' := by
  unfold count
  rw [Access.bind_apply]
  cases varInt reader with
  | error e reader' => rfl
  | ok value reader' =>
    change (if reader'.ahead.holds (value.toNat * max minSize 1) then pure value.toNat
      else throw (.violation (.excessiveCount what value reader'.remaining)) : Read Nat) reader' = _
    dsimp only
    split_ifs <;> rfl

theorem counted_apply (minSize : Nat) (what : String) (item : Read α) (reader : Reader) :
    counted minSize what item reader =
      match varInt reader with
      | .ok value reader' =>
        if reader'.ahead.holds (value.toNat * max minSize 1) then times value.toNat item reader'
        else .error (.violation (.excessiveCount what value reader'.remaining)) reader'
      | .error e reader' => .error e reader' := by
  unfold counted
  rw [Access.bind_apply, count_apply]
  cases varInt reader with
  | error e reader' => rfl
  | ok value reader' =>
    dsimp only
    split_ifs <;> rfl

/-- A count that is not checked, and that many items. -/
theorem accepts_varInt_times {item : Read α} {Fits : α → Prop} {wire : α → Bytes}
    (h : Accepts item id Fits wire) :
    Accepts (do let count ← varInt; times count.toNat item) id
      (fun found ↦ Countable found ∧ ∀ a ∈ found, Fits a)
      (fun found ↦ VarInt.ofLength found ++ found.flatMap wire) := by
  have hpair := accepts_varInt.bind fun count ↦ accepts_times h count.toNat
  apply hpair.reindex fun found ↦ (UInt64.ofNat found.length, found)
  · intro found
    rfl
  · intro found
    simp only [true_and]
    constructor
    · rintro ⟨hlength, hfits⟩
      exact ⟨(countable_of_length hlength).1, hfits⟩
    · rintro ⟨hfound, hfits⟩
      exact ⟨(toNat_ofNat_length hfound).symm, hfits⟩
  · intro found _
    rfl
  · rintro ⟨count, found⟩ ⟨-, hlength, -⟩
    exact ⟨found, by rw [(countable_of_length hlength).2]⟩

/-- The plausibility of a count is implied by what is read after it, if the size it presumes for
an item is a lower bound. -/
theorem accepts_counted {item : Read α} {Fits : α → Prop} {wire : α → Bytes}
    (h : Accepts item id Fits wire) {minSize : Nat} (what : String)
    (hsize : ∀ a, Fits a → max minSize 1 ≤ (wire a).length) :
    Accepts (counted minSize what item) id (fun found ↦ Countable found ∧ ∀ a ∈ found, Fits a)
      (fun found ↦ VarInt.ofLength found ++ found.flatMap wire) := by
  intro reader found reader'
  rw [← accepts_varInt_times h reader found reader', counted_apply, Access.bind_apply]
  cases varInt reader with
  | error e middle => rfl
  | ok count middle =>
    dsimp only
    split_ifs with hholds
    · rfl
    · constructor
      · intro hread
        contradiction
      · intro hread
        obtain ⟨⟨hlength, hfits⟩, hahead, -⟩ := (accepts_times h count.toNat).eq_ok_iff.1 hread
        have hroom := le_length_flatMap fun a ha ↦ hsize a (hfits a ha)
        rw [hlength] at hroom
        exact absurd ((Bytes.holds_iff _ _).2 (hroom.trans hahead.length_le)) hholds

end Read

end CoinWire
