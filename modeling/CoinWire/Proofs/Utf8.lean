import Mathlib
import CoinWire.Text.Utf8

/-!
# Text and bytes

A byte string is cut into pieces without loss, and the encoding of a text is cut into the
characters of the text. So strict reading is the inverse of encoding, and tolerant reading keeps
exactly the byte strings that strict reading accepts. A zero byte stands for a zero character and
is a part of no other, so a text can be cut at its first zero before or after it is encoded.
-/

namespace CoinWire.Text.Utf8

/-! ## The bytes of a character -/

/-- The bytes after the first one: six bits each, the high ones first. -/
def continuation : (count value : Nat) → Bytes
  | 0, _ => []
  | count + 1, value => UInt8.ofNat (value / 64 ^ count % 64 + 0x80) :: continuation count value

/-- How many bytes follow the first one of a scalar value. -/
def followingOf (value : Nat) : Nat :=
  if value ≤ 0x7F then 0 else if value ≤ 0x7FF then 1 else if value ≤ 0xFFFF then 2 else 3

theorem followingOf_cases (value : Nat) :
    followingOf value = 0 ∧ value ≤ 0x7F ∨
      followingOf value = 1 ∧ 0x80 ≤ value ∧ value ≤ 0x7FF ∨
      followingOf value = 2 ∧ 0x800 ≤ value ∧ value ≤ 0xFFFF ∨
      followingOf value = 3 ∧ 0x10000 ≤ value := by
  unfold followingOf
  split_ifs <;> omega

/-- The mark in a first byte which `count` bytes follow. -/
def leadMark : (count : Nat) → Nat
  | 0 => 0
  | 1 => 0xC0
  | 2 => 0xE0
  | _ => 0xF0

theorem utf8EncodeChar_eq (c : Char) :
    String.utf8EncodeChar c =
      UInt8.ofNat (c.toNat / 64 ^ followingOf c.toNat + leadMark (followingOf c.toNat)) ::
        continuation (followingOf c.toNat) c.toNat := by
  have hvalid : c.toNat < 0xD800 ∨ 0xDFFF < c.toNat ∧ c.toNat < 0x110000 := c.valid
  have hnat : c.val.toNat = c.toNat := rfl
  unfold String.utf8EncodeChar followingOf
  simp only [hnat]
  split_ifs
  · simp [continuation, leadMark]
  · have hlead : c.toNat / 64 % 32 = c.toNat / 64 := by omega
    simp [continuation, leadMark, hlead]
  · have hlead : c.toNat / 4096 % 16 = c.toNat / 4096 := by omega
    simp [continuation, leadMark, hlead]
  · have hlead : c.toNat / 262144 % 8 = c.toNat / 262144 := by omega
    simp [continuation, leadMark, hlead]

theorem toNat_ofNat_of_lt {value : Nat} (h : value < 256) : (UInt8.ofNat value).toNat = value :=
  UInt8.toNat_ofNat_of_lt' h

theorem toNat_ofNat_continuation (value : Nat) :
    (UInt8.ofNat (value % 64 + 0x80)).toNat = value % 64 + 0x80 :=
  toNat_ofNat_of_lt (by omega)

/-! ## Reading a character -/

/-- A first byte in range announces how many bytes follow it, and adds what is not its mark. -/
theorem following?_eq_some_iff {first : UInt8} {count : Nat} :
    following? first = some count ↔
      (count = 0 ∧ first.toNat < 0x80 ∨ count = 1 ∧ 0xC2 ≤ first.toNat ∧ first.toNat < 0xE0 ∨
        count = 2 ∧ 0xE0 ≤ first.toNat ∧ first.toNat < 0xF0 ∨
        count = 3 ∧ 0xF0 ≤ first.toNat ∧ first.toNat < 0xF5) := by
  simp only [following?, UInt8.lt_iff_toNat_lt, UInt8.reduceToNat]
  split_ifs <;> simp <;> omega

theorem leadBits_eq {first : UInt8} {count : Nat} (h : following? first = some count) :
    leadBits first = first.toNat - leadMark count := by
  simp only [leadBits, UInt8.lt_iff_toNat_lt, UInt8.reduceToNat]
  obtain ⟨rfl, h⟩ | ⟨rfl, h⟩ | ⟨rfl, h⟩ | ⟨rfl, h⟩ := following?_eq_some_iff.1 h <;>
    simp only [leadMark] <;> split_ifs <;> omega

theorem toNat_secondMin_cases (first : UInt8) :
    first.toNat = 0xE0 ∧ (secondMin first).toNat = 0xA0 ∨
      first.toNat = 0xF0 ∧ (secondMin first).toNat = 0x90 ∨
      first.toNat ≠ 0xE0 ∧ first.toNat ≠ 0xF0 ∧ (secondMin first).toNat = 0x80 := by
  simp only [secondMin, ← UInt8.toNat_inj, UInt8.reduceToNat]
  split_ifs <;> simp_all

theorem toNat_secondMax_cases (first : UInt8) :
    first.toNat = 0xED ∧ (secondMax first).toNat = 0x9F ∨
      first.toNat = 0xF4 ∧ (secondMax first).toNat = 0x8F ∨
      first.toNat ≠ 0xED ∧ first.toNat ≠ 0xF4 ∧ (secondMax first).toNat = 0xBF := by
  simp only [secondMax, ← UInt8.toNat_inj, UInt8.reduceToNat]
  split_ifs <;> simp_all

theorem complete_cons (missing : Nat) (low high byte : UInt8) (value : Nat) (taken rest : Bytes) :
    complete (missing + 1) low high value taken (byte :: rest) =
      if low.toNat ≤ byte.toNat ∧ byte.toNat ≤ high.toNat then
        complete missing 0x80 0xBF (64 * value + byte.toNat % 64) (taken ++ [byte]) rest
      else (.invalid taken, byte :: rest) := by
  simp only [complete, UInt8.le_iff_toNat_le]

/-- The second byte, if there is one, lies between `low` and `high`. -/
def SecondWithin (low high : UInt8) (count value : Nat) : Prop :=
  ∀ below, count = below + 1 →
    low.toNat ≤ value / 64 ^ below % 64 + 0x80 ∧ value / 64 ^ below % 64 + 0x80 ≤ high.toNat

/-- A character is finished by the low bits of its value. -/
theorem complete_eq_char_iff {missing : Nat} {low high : UInt8} {value : Nat}
    {taken rest rest' : Bytes} {c : Char} (hlow : 0x80 ≤ low.toNat) (hhigh : high.toNat ≤ 0xBF) :
    complete missing low high value taken rest = (.char c, rest') ↔
      ∃ whole, whole / 64 ^ missing = value ∧ Char.ofNat whole = c ∧
        rest = continuation missing whole ++ rest' ∧ SecondWithin low high missing whole := by
  induction missing generalizing low high value taken rest with
  | zero =>
    simp [complete, continuation, SecondWithin]
  | succ missing ih =>
    have hbits (whole : Nat) : whole / 64 ^ (missing + 1) = whole / 64 ^ missing / 64 := by
      rw [Nat.pow_succ, Nat.div_div_eq_div_mul]
    cases rest with
    | nil => simp [complete, continuation]
    | cons byte rest =>
      rw [complete_cons]
      constructor
      · intro h
        split_ifs at h with hrange
        · obtain ⟨whole, hwhole, hc, hrest, -⟩ := (ih (by decide) (by decide)).1 h
          have hbyte : whole / 64 ^ missing % 64 + 0x80 = byte.toNat := by omega
          refine ⟨whole, by rw [hbits]; omega, hc, ?_, ?_⟩
          · rw [continuation, hbyte, UInt8.ofNat_toNat, List.cons_append, hrest]
          · rintro count ⟨⟩
            rwa [hbyte]
        · simp at h
      · rintro ⟨whole, hwhole, hc, hrest, hrange⟩
        obtain ⟨hbyte, hrest⟩ := List.cons.inj hrest
        have hnat : byte.toNat = whole / 64 ^ missing % 64 + 0x80 := by
          rw [hbyte, toNat_ofNat_continuation]
        have hinner (count : Nat) : 0x80 ≤ whole / 64 ^ count % 64 + 0x80 ∧
            whole / 64 ^ count % 64 + 0x80 ≤ 0xBF := by omega
        rw [if_pos (hnat ▸ hrange missing rfl), ih (by decide) (by decide)]
        exact ⟨whole, by rw [hbits] at hwhole; omega, hc, hrest, fun count _ ↦ hinner count⟩

/-- A value that was put together is a scalar value, and its encoding has the same form. -/
theorem isValidChar_of_following? {first : UInt8} {count value : Nat}
    (hfollowing : following? first = some count)
    (hlead : value / 64 ^ count = first.toNat - leadMark count)
    (hsecond : SecondWithin (secondMin first) (secondMax first) count value) :
    value.isValidChar ∧ followingOf value = count ∧
      value / 64 ^ count + leadMark count = first.toNat := by
  have hmin := toNat_secondMin_cases first
  have hmax := toNat_secondMax_cases first
  have hcount := followingOf_cases value
  unfold Nat.isValidChar
  obtain ⟨rfl, hfirst⟩ | ⟨rfl, hfirst⟩ | ⟨rfl, hfirst⟩ | ⟨rfl, hfirst⟩ :=
    following?_eq_some_iff.1 hfollowing
  · simp only [leadMark] at hlead ⊢
    omega
  · simp only [leadMark] at hlead ⊢
    omega
  · have hbounds := hsecond 1 rfl
    simp only [leadMark] at hlead ⊢
    omega
  · have hbounds := hsecond 2 rfl
    simp only [leadMark] at hlead ⊢
    omega

/-- The first byte of a scalar value announces its other bytes, and the second one is in range. -/
theorem following?_of_isValidChar {first : UInt8} {value : Nat} (hvalid : value.isValidChar)
    (hfirst : first = UInt8.ofNat (value / 64 ^ followingOf value + leadMark (followingOf value))) :
    first.toNat = value / 64 ^ followingOf value + leadMark (followingOf value) ∧
      following? first = some (followingOf value) ∧
      SecondWithin (secondMin first) (secondMax first) (followingOf value) value := by
  have hmin := toNat_secondMin_cases first
  have hmax := toNat_secondMax_cases first
  have hcount := followingOf_cases value
  unfold Nat.isValidChar at hvalid
  generalize followingOf value = count at *
  have hnat : first.toNat = value / 64 ^ count + leadMark count := by
    rw [hfirst]
    apply toNat_ofNat_of_lt
    obtain ⟨rfl, hvalue⟩ | ⟨rfl, hvalue⟩ | ⟨rfl, hvalue⟩ | ⟨rfl, hvalue⟩ := hcount <;>
      · simp only [leadMark]
        omega
  refine ⟨hnat, following?_eq_some_iff.2 ?_, ?_⟩
  · obtain ⟨rfl, hvalue⟩ | ⟨rfl, hvalue⟩ | ⟨rfl, hvalue⟩ | ⟨rfl, hvalue⟩ := hcount <;>
      · simp only [leadMark] at hnat
        omega
  · rintro below rfl
    obtain ⟨hcount, hvalue⟩ | ⟨hcount, hvalue⟩ | ⟨hcount, hvalue⟩ | ⟨hcount, hvalue⟩ := hcount
    · contradiction
    all_goals
      injection hcount with hbelow
      subst hbelow
      simp only [leadMark] at hnat
      omega

/-- A character is read where its encoding lies, and nowhere else. -/
theorem next_eq_char_iff {first : UInt8} {rest rest' : Bytes} {c : Char} :
    next first rest = (.char c, rest') ↔ first :: rest = String.utf8EncodeChar c ++ rest' := by
  have hlow : 0x80 ≤ (secondMin first).toNat := by
    have := toNat_secondMin_cases first
    omega
  have hhigh : (secondMax first).toNat ≤ 0xBF := by
    have := toNat_secondMax_cases first
    omega
  rw [utf8EncodeChar_eq, List.cons_append, List.cons.injEq]
  unfold next
  constructor
  · intro h
    cases hfollowing : following? first with
    | none =>
      rw [hfollowing] at h
      simp at h
    | some count =>
      rw [hfollowing] at h
      dsimp only at h
      rw [leadBits_eq hfollowing, complete_eq_char_iff hlow hhigh] at h
      obtain ⟨value, hlead, rfl, hrest, hsecond⟩ := h
      obtain ⟨hvalid, hcount, hfirst⟩ := isValidChar_of_following? hfollowing hlead hsecond
      rw [Char.toNat_ofNat, if_pos hvalid, hcount, hfirst, UInt8.ofNat_toNat]
      exact ⟨rfl, hrest⟩
  · rintro ⟨hfirst, hrest⟩
    obtain ⟨hnat, hfollowing, hsecond⟩ :=
      following?_of_isValidChar (show c.toNat.isValidChar from c.valid) hfirst
    rw [hfollowing]
    dsimp only
    rw [leadBits_eq hfollowing, complete_eq_char_iff hlow hhigh]
    exact ⟨c.toNat, by rw [hnat, Nat.add_sub_cancel], Char.ofNat_toNat c, hrest, hsecond⟩

/-! ## All characters -/

theorem pieces_append (c : Char) (rest : Bytes) :
    pieces (String.utf8EncodeChar c ++ rest) = .char c :: pieces rest := by
  have hencode := utf8EncodeChar_eq c
  rw [hencode, List.cons_append, pieces_cons, next_eq_char_iff.2]
  rw [← List.cons_append, ← hencode]

theorem pieces_flatMap (chars : List Char) :
    pieces (chars.flatMap String.utf8EncodeChar) = chars.map .char := by
  induction chars with
  | nil => exact pieces_nil
  | cons c chars ih => rw [List.flatMap_cons, pieces_append, ih, List.map_cons]

/-- Bytes that are cut into characters only are the encoding of these characters. -/
theorem flatMap_of_pieces {bytes : Bytes} {chars : List Char}
    (h : pieces bytes = chars.map .char) : chars.flatMap String.utf8EncodeChar = bytes := by
  induction chars generalizing bytes with
  | nil =>
    cases bytes with
    | nil => rfl
    | cons first rest =>
      rw [pieces_cons] at h
      contradiction
  | cons c chars ih =>
    cases bytes with
    | nil =>
      rw [pieces_nil] at h
      contradiction
    | cons first rest =>
      rw [pieces_cons, List.map_cons, List.cons.injEq] at h
      have hnext : next first rest = (.char c, (next first rest).2) := Prod.ext h.1 rfl
      rw [List.flatMap_cons, ih h.2, ← next_eq_char_iff.1 hnext]

/-! ## Strict and tolerant reading -/

theorem charsOnto_eq_ok_iff {read chars : List Char} {index : Nat} {found : List Piece} :
    charsOnto read index found = .ok chars ↔
      ∃ more, found = more.map .char ∧ chars = read.reverse ++ more := by
  induction found generalizing read index with
  | nil =>
    constructor
    · rintro ⟨⟩
      exact ⟨[], rfl, by simp⟩
    · rintro ⟨more, hmore, rfl⟩
      rw [List.map_eq_nil_iff.1 hmore.symm, List.append_nil]
      rfl
  | cons piece found ih =>
    cases piece with
    | char c =>
      rw [charsOnto, ih]
      constructor
      · rintro ⟨more, rfl, rfl⟩
        exact ⟨c :: more, rfl, by simp⟩
      · rintro ⟨more, hmore, rfl⟩
        cases more with
        | nil => contradiction
        | cons c' more =>
          rw [List.map_cons, List.cons.injEq, Piece.char.injEq] at hmore
          obtain ⟨rfl, rfl⟩ := hmore
          exact ⟨more, rfl, by simp⟩
    | invalid bytes | truncated bytes =>
      constructor
      · intro h
        contradiction
      · rintro ⟨more, hmore, -⟩
        cases more <;> simp at hmore

/-- Strict reading is the inverse of encoding. -/
theorem decode_eq_ok_iff {bytes : Bytes} {text : String} :
    decode bytes = .ok text ↔ encode text = bytes := by
  unfold decode encode
  constructor
  · intro h
    cases hchars : charsOnto [] 0 (pieces bytes) with
    | error fault =>
      rw [hchars] at h
      contradiction
    | ok chars =>
      rw [hchars] at h
      injection h with htext
      obtain ⟨more, hpieces, rfl⟩ := charsOnto_eq_ok_iff.1 hchars
      rw [← htext, String.toList_ofList]
      exact flatMap_of_pieces hpieces
  · rintro rfl
    have hchars : charsOnto [] 0 (text.toList.map Piece.char) = .ok text.toList :=
      charsOnto_eq_ok_iff.2 ⟨text.toList, rfl, rfl⟩
    rw [pieces_flatMap, hchars]
    exact congrArg Except.ok String.ofList_toList

theorem decodeLossy_encode (text : String) : decodeLossy (encode text) = text := by
  have hshown : Piece.shown ∘ Piece.char = id := rfl
  rw [decodeLossy, encode, pieces_flatMap, List.map_map, hshown, List.map_id, String.ofList_toList]

/-- Tolerant reading loses nothing exactly where there is nothing to tolerate. -/
theorem encode_decodeLossy_eq_iff {bytes : Bytes} :
    encode (decodeLossy bytes) = bytes ↔ ∃ text, decode bytes = .ok text := by
  constructor
  · intro h
    exact ⟨decodeLossy bytes, decode_eq_ok_iff.2 h⟩
  · rintro ⟨text, htext⟩
    rw [← decode_eq_ok_iff.1 htext, decodeLossy_encode]

/-! ## Texts with zeros -/

theorem zero_not_mem_continuation (count value : Nat) : 0 ∉ continuation count value := by
  induction count with
  | zero => simp [continuation]
  | succ count ih =>
    rw [continuation, List.mem_cons, not_or, ← UInt8.toNat_inj, toNat_ofNat_continuation]
    exact ⟨Nat.ne_of_lt (Nat.succ_pos _), ih⟩

/-- Only the zero character has a zero byte. -/
theorem zero_mem_utf8EncodeChar_iff {c : Char} : 0 ∈ String.utf8EncodeChar c ↔ c = '\x00' := by
  have hlead := (following?_of_isValidChar (show c.toNat.isValidChar from c.valid) rfl).1
  have hcount := followingOf_cases c.toNat
  rw [utf8EncodeChar_eq, List.mem_cons, or_iff_left (zero_not_mem_continuation _ _),
    ← UInt8.toNat_inj, hlead, ← Char.toNat_inj]
  change 0 = _ ↔ c.toNat = 0
  obtain ⟨hcount, hvalue⟩ | ⟨hcount, hvalue⟩ | ⟨hcount, hvalue⟩ | ⟨hcount, hvalue⟩ := hcount <;>
    · simp only [hcount, leadMark]
      omega

theorem zero_mem_encode_iff {text : String} : 0 ∈ encode text ↔ '\x00' ∈ text.toList := by
  rw [encode, List.mem_flatMap]
  constructor
  · rintro ⟨c, hc, hzero⟩
    rwa [← zero_mem_utf8EncodeChar_iff.1 hzero]
  · intro h
    exact ⟨_, h, zero_mem_utf8EncodeChar_iff.2 rfl⟩

/-- The text up to its first zero character. -/
def upToZero (text : String) : String :=
  String.ofList (text.toList.takeWhile (· != '\x00'))

theorem upToZero_eq_self_iff {text : String} : upToZero text = text ↔ '\x00' ∉ text.toList := by
  rw [upToZero, ← String.toList_inj, String.toList_ofList, List.takeWhile_eq_self_iff]
  constructor
  · intro h hmem
    exact absurd (h _ hmem) (by decide)
  · intro h c hc
    rw [bne_iff_ne]
    exact ne_of_mem_of_not_mem hc h

theorem takeWhile_flatMap (chars : List Char) :
    (chars.flatMap String.utf8EncodeChar).takeWhile (· != 0) =
      (chars.takeWhile (· != '\x00')).flatMap String.utf8EncodeChar := by
  induction chars with
  | nil => rfl
  | cons c chars ih =>
    rw [List.flatMap_cons]
    by_cases hzero : c = '\x00'
    · subst hzero
      rfl
    · have hchar : (c != '\x00') = true := bne_iff_ne.2 hzero
      have hbytes : ∀ byte ∈ String.utf8EncodeChar c, (byte != 0) = true := by
        intro byte hbyte
        rw [bne_iff_ne]
        rintro rfl
        exact hzero (zero_mem_utf8EncodeChar_iff.1 hbyte)
      rw [List.takeWhile_append_of_pos hbytes, ih, List.takeWhile_cons, if_pos hchar,
        List.flatMap_cons]

theorem takeWhile_encode (text : String) :
    (encode text).takeWhile (· != 0) = encode (upToZero text) := by
  rw [encode, encode, upToZero, String.toList_ofList, takeWhile_flatMap]

end CoinWire.Text.Utf8
