import Mathlib
import CoinWire.Proofs.LittleEndian
import CoinWire.VarInt

/-!
# Canonical variable-length integers

A byte string decodes to a value exactly when the value's encoding is at its front. The two
directions are the round trip with a tail and the canonicity of what is accepted. A byte string that
does not decode either ends inside an encoding, and more bytes may complete it, or has in front a
value that has a shorter form, and no bytes can.
-/

namespace CoinWire.VarInt

theorem bodyWidth?_eq_some {first : UInt8} {width : Nat} (h : bodyWidth? first = some width) :
    first = 0xFD ∧ width = 2 ∨ first = 0xFE ∧ width = 4 ∨ first = 0xFF ∧ width = 8 := by
  unfold bodyWidth? at h
  split_ifs at h <;> simp_all

/-- A first byte that announces nothing stands for itself. -/
theorem encode_toUInt64 {first : UInt8} (h : bodyWidth? first = none) :
    encode first.toUInt64 = [first] := by
  have hlt : first.toUInt64 < 0xFD := by
    unfold bodyWidth? at h
    split_ifs at h with h1 h2 h3
    rw [← UInt8.toNat_inj] at h1 h2 h3
    have := first.toNat_lt
    rw [UInt64.lt_iff_toNat_lt]
    simp at h1 h2 h3 ⊢
    omega
  simp [encode, hlt]

/-- An encoding of more than one byte is a first byte and a little-endian body. -/
theorem encode_of_size {first : UInt8} {width : Nat} (hfirst : bodyWidth? first = some width)
    {value : UInt64} (hsize : size value = 1 + width) :
    encode value = first :: Bytes.littleEndian width value.toNat := by
  unfold size at hsize
  unfold encode
  obtain ⟨rfl, rfl⟩ | ⟨rfl, rfl⟩ | ⟨rfl, rfl⟩ := bodyWidth?_eq_some hfirst <;>
    split_ifs at hsize ⊢ <;> first | rfl | omega

/-- The body of an encoding is wide enough for the value. -/
theorem toNat_lt_of_size {first : UInt8} {width : Nat} (hfirst : bodyWidth? first = some width)
    {value : UInt64} (hsize : size value = 1 + width) : value.toNat < 256 ^ width := by
  have htop := value.toNat_lt
  simp only [size, UInt64.lt_iff_toNat_lt, UInt64.le_iff_toNat_le, UInt64.reduceToNat] at hsize
  obtain ⟨-, rfl⟩ | ⟨-, rfl⟩ | ⟨-, rfl⟩ := bodyWidth?_eq_some hfirst <;>
    split_ifs at hsize <;> omega

/-- A value is encoded in one byte, or in a body that a first byte announces. -/
theorem size_cases (value : UInt64) :
    (value < 0xFD ∧ bodyWidth? value.toUInt8 = none) ∨
      ∃ first width, bodyWidth? first = some width ∧ size value = 1 + width := by
  unfold size
  split_ifs with h1 h2 h3
  · refine .inl ⟨h1, ?_⟩
    rw [UInt64.lt_iff_toNat_lt] at h1
    have hne (byte : UInt8) (hbyte : 0xFD ≤ byte.toNat) : value.toUInt8 ≠ byte := by
      intro h
      rw [← UInt8.toNat_inj, UInt64.toNat_toUInt8] at h
      simp at h1
      omega
    simp [bodyWidth?, hne]
  · exact .inr ⟨0xFD, 2, by decide, rfl⟩
  · exact .inr ⟨0xFE, 4, by decide, rfl⟩
  · exact .inr ⟨0xFF, 8, by decide, rfl⟩

/-- A body holds its value without loss. -/
theorem toNat_ofNat_ofLittleEndian {first : UInt8} {body : Bytes}
    (hfirst : bodyWidth? first = some body.length) :
    (UInt64.ofNat (Bytes.ofLittleEndian body)).toNat = Bytes.ofLittleEndian body := by
  have hwidth : (256 : Nat) ^ body.length ≤ UInt64.size := by
    obtain ⟨-, h⟩ | ⟨-, h⟩ | ⟨-, h⟩ := bodyWidth?_eq_some hfirst <;> rw [h] <;> decide
  exact UInt64.toNat_ofNat_of_lt' ((Bytes.ofLittleEndian_lt body).trans_le hwidth)

theorem decode_encode_append (value : UInt64) (rest : Bytes) :
    decode (encode value ++ rest) = .ok (value, size value) := by
  obtain ⟨hlt, hnone⟩ | ⟨first, width, hfirst, hsize⟩ := size_cases value
  · have hvalue : value.toUInt8.toUInt64 = value := by
      rw [← UInt64.toNat_inj, UInt8.toNat_toUInt64, UInt64.toNat_toUInt8]
      rw [UInt64.lt_iff_toNat_lt] at hlt
      simp at hlt
      omega
    simp [encode, size, hlt, decode, hnone, hvalue]
  · have hfits := toNat_lt_of_size hfirst hsize
    have hbody : (Bytes.littleEndian width value.toNat ++ rest).take width =
        Bytes.littleEndian width value.toNat := by
      simp
    rw [encode_of_size hfirst hsize, List.cons_append, decode, hfirst]
    simp only [hbody, Bytes.length_littleEndian, if_true, Bytes.ofLittleEndian_littleEndian,
      Nat.mod_eq_of_lt hfits, UInt64.ofNat_toNat, hsize]

theorem encode_isPrefix_of_decode {bytes : Bytes} {value : UInt64} {used : Nat}
    (h : decode bytes = .ok (value, used)) : encode value <+: bytes ∧ used = size value := by
  cases bytes with
  | nil => simp [decode] at h
  | cons first rest =>
    rw [decode] at h
    cases hfirst : bodyWidth? first with
    | none =>
      simp only [hfirst, Except.ok.injEq, Prod.mk.injEq] at h
      obtain ⟨rfl, rfl⟩ := h
      rw [← length_encode, encode_toUInt64 hfirst]
      exact ⟨⟨rest, rfl⟩, rfl⟩
    | some width =>
      simp only [hfirst] at h
      split_ifs at h with hlength hsize
      simp only [Except.ok.injEq, Prod.mk.injEq] at h
      obtain ⟨rfl, rfl⟩ := h
      refine ⟨?_, hsize.symm⟩
      have hvalue : (UInt64.ofNat (Bytes.ofLittleEndian (rest.take width))).toNat =
          Bytes.ofLittleEndian (rest.take width) :=
        toNat_ofNat_ofLittleEndian (hlength.symm ▸ hfirst)
      have hbody : Bytes.littleEndian width (Bytes.ofLittleEndian (rest.take width)) =
          rest.take width := by
        have h := Bytes.littleEndian_ofLittleEndian (rest.take width)
        rwa [hlength] at h
      rw [encode_of_size hfirst hsize, hvalue, hbody, List.prefix_cons_inj]
      exact List.take_prefix width rest

/-- A byte string decodes to a value exactly when the value's encoding is at its front. -/
theorem decode_eq_ok_iff {bytes : Bytes} {value : UInt64} {used : Nat} :
    decode bytes = .ok (value, used) ↔ encode value <+: bytes ∧ used = size value := by
  constructor
  · exact encode_isPrefix_of_decode
  · rintro ⟨⟨rest, rfl⟩, rfl⟩
    exact decode_encode_append value rest

/-- A part of an encoding that is not all of it is too short for any value. -/
theorem decode_of_isPrefix {bytes : Bytes} {value : UInt64} (h : bytes <+: encode value)
    (hshort : bytes.length < size value) :
    ∃ needed remaining, decode bytes = .error (.underrun needed remaining) := by
  cases bytes with
  | nil => exact ⟨1, 0, rfl⟩
  | cons first rest =>
    obtain ⟨hlt, -⟩ | ⟨first', width, hfirst, hsize⟩ := size_cases value
    · simp [size, hlt] at hshort
    · rw [encode_of_size hfirst hsize, List.cons_prefix_cons] at h
      obtain ⟨rfl, -⟩ := h
      have hbody : (rest.take width).length ≠ width := by
        rw [hsize, List.length_cons] at hshort
        rw [List.length_take]
        omega
      rw [decode, hfirst]
      dsimp only
      rw [if_neg hbody]
      exact ⟨_, _, rfl⟩

theorem size_pos (value : UInt64) : 0 < size value := by
  unfold size
  split_ifs <;> omega

theorem size_le (value : UInt64) : size value ≤ 9 := by
  unfold size
  split_ifs <;> omega

/-! ## What does not decode -/

section

variable {first : UInt8} {width : Nat} {value : UInt64}

/-- A value that fits in a body takes no more than the body and its first byte. -/
theorem size_le_of_toNat_lt (hfirst : bodyWidth? first = some width)
    (h : value.toNat < 256 ^ width) : size value ≤ 1 + width := by
  simp only [size, UInt64.lt_iff_toNat_lt, UInt64.le_iff_toNat_le, UInt64.reduceToNat]
  obtain ⟨-, rfl⟩ | ⟨-, rfl⟩ | ⟨-, rfl⟩ := bodyWidth?_eq_some hfirst <;> split_ifs <;> omega

/-- A body whose last byte is the highest has no shorter form. -/
theorem size_of_le_toNat (hfirst : bodyWidth? first = some width)
    (hlow : 256 ^ (width - 1) * 255 ≤ value.toNat) (hhigh : value.toNat < 256 ^ width) :
    size value = 1 + width := by
  simp only [size, UInt64.lt_iff_toNat_lt, UInt64.le_iff_toNat_le, UInt64.reduceToNat]
  obtain ⟨-, rfl⟩ | ⟨-, rfl⟩ | ⟨-, rfl⟩ := bodyWidth?_eq_some hfirst <;> split_ifs <;> omega

/-- Bytes that end inside a body can be continued to the encoding of a value. What is missing is
filled so that the last byte is the highest. -/
theorem exists_isPrefix_encode (hfirst : bodyWidth? first = some width) {rest : Bytes}
    (hshort : rest.length < width) :
    ∃ value, first :: rest <+: encode value ∧ first :: rest ≠ encode value := by
  let front : Bytes := rest ++ List.replicate (width - 1 - rest.length) 0
  let body : Bytes := front ++ [0xFF]
  let value := UInt64.ofNat (Bytes.ofLittleEndian body)
  have hfront : front.length = width - 1 := by
    simp only [front, List.length_append, List.length_replicate]
    omega
  have hbody : body.length = width := by
    simp only [body, List.length_append, hfront, List.length_singleton]
    omega
  have hvalue : value.toNat = Bytes.ofLittleEndian body :=
    toNat_ofNat_ofLittleEndian (hbody.symm ▸ hfirst)
  have hlow : 256 ^ (width - 1) * 255 ≤ value.toNat := by
    rw [hvalue, Bytes.ofLittleEndian_append, hfront]
    exact Nat.le_add_left _ _
  have hhigh : value.toNat < 256 ^ width := by
    rw [hvalue, ← hbody]
    exact Bytes.ofLittleEndian_lt body
  have hencode : encode value = first :: body := by
    rw [encode_of_size hfirst (size_of_le_toNat hfirst hlow hhigh), hvalue, ← hbody,
      Bytes.littleEndian_ofLittleEndian]
  refine ⟨value, ?_, ?_⟩
  · rw [hencode, List.prefix_cons_inj]
    exact (List.prefix_append _ _).trans (List.prefix_append front _)
  · intro h
    have hlength := congrArg List.length (h.trans hencode)
    simp only [List.length_cons, hbody] at hlength
    omega

end

/-- Every byte string begins with an encoding, or ends inside one, or begins with a value in a form
that is not the shortest. -/
theorem decode_cases (bytes : Bytes) :
    (∃ value, encode value <+: bytes ∧ decode bytes = .ok (value, size value)) ∨
      (∃ value needed remaining, (bytes <+: encode value ∧ bytes ≠ encode value) ∧
        decode bytes = .error (.underrun needed remaining)) ∨
      ∃ value used, size value < used ∧
        decode bytes = .error (.violation (.overlongVarInt value used)) := by
  cases bytes with
  | nil => exact .inr (.inl ⟨0, 1, 0, ⟨List.nil_prefix, nofun⟩, rfl⟩)
  | cons first rest =>
    cases hfirst : bodyWidth? first with
    | none =>
      have hdecode : decode (first :: rest) = .ok (first.toUInt64, 1) := by
        simp only [decode, hfirst]
      obtain ⟨hfront, hsize⟩ := encode_isPrefix_of_decode hdecode
      exact .inl ⟨first.toUInt64, hfront, hsize ▸ hdecode⟩
    | some width =>
      by_cases hlength : (rest.take width).length = width
      · have hfits := Bytes.ofLittleEndian_lt (rest.take width)
        rw [← toNat_ofNat_ofLittleEndian (hlength.symm ▸ hfirst), hlength] at hfits
        obtain hlt | hsize := (size_le_of_toNat_lt hfirst hfits).lt_or_eq
        · refine .inr (.inr ⟨_, 1 + width, hlt, ?_⟩)
          simp only [decode, hfirst, hlength, if_true, if_neg hlt.ne]
        · have hdecode : decode (first :: rest) =
              .ok (UInt64.ofNat (Bytes.ofLittleEndian (rest.take width)), 1 + width) := by
            simp only [decode, hfirst, hlength, hsize, if_true]
          exact .inl ⟨_, (encode_isPrefix_of_decode hdecode).1, hsize ▸ hdecode⟩
      · have hshort : rest.length < width := by
          rw [List.length_take] at hlength
          omega
        obtain ⟨value, hends⟩ := exists_isPrefix_encode hfirst hshort
        refine .inr (.inl ⟨value, width, rest.length, hends, ?_⟩)
        simp only [decode, hfirst, if_neg hlength]

/-- More bytes are asked for just inside an encoding. -/
theorem exists_underrun_iff {bytes : Bytes} :
    (∃ needed remaining, decode bytes = .error (.underrun needed remaining)) ↔
      ∃ value, bytes <+: encode value ∧ bytes ≠ encode value := by
  constructor
  · rintro ⟨needed, remaining, h⟩
    obtain ⟨value, -, hok⟩ | ⟨value, -, -, hends, -⟩ | ⟨value, used, -, hlong⟩ := decode_cases bytes
    · rw [hok] at h
      contradiction
    · exact ⟨value, hends⟩
    · rw [hlong] at h
      cases h
  · rintro ⟨value, hends, hne⟩
    apply decode_of_isPrefix hends
    rw [← length_encode]
    exact hends.length_le.lt_of_ne fun h ↦ hne (hends.eq_of_length h)

/-- Bytes are refused if they neither begin with an encoding nor end inside one. -/
theorem exists_overlong_iff {bytes : Bytes} :
    (∃ value used, size value < used ∧
        decode bytes = .error (.violation (.overlongVarInt value used))) ↔
      ∀ value, ¬encode value <+: bytes ∧ ¬bytes <+: encode value := by
  constructor
  · rintro ⟨_, _, -, h⟩ value
    have hwhole : ¬encode value <+: bytes := by
      intro hfront
      rw [decode_eq_ok_iff.2 ⟨hfront, rfl⟩] at h
      contradiction
    refine ⟨hwhole, fun hends ↦ ?_⟩
    have hne : bytes ≠ encode value := fun heq ↦ hwhole (heq ▸ List.prefix_rfl)
    obtain ⟨needed, remaining, hunderrun⟩ := exists_underrun_iff.2 ⟨value, hends, hne⟩
    rw [hunderrun] at h
    cases h
  · intro hnone
    obtain ⟨value, hfront, -⟩ | ⟨value, -, -, hends, -⟩ | hlong := decode_cases bytes
    · exact absurd hfront (hnone value).1
    · exact absurd hends.1 (hnone value).2
    · exact hlong

/-- Encodings have their sizes and are read back whatever follows; what is read back is what stood
there. More bytes are asked for just inside an encoding. All other byte strings are refused, for
they have a value in front that has a shorter form. -/
theorem decode_self_delimiting :
    (∀ value rest, decode (encode value ++ rest) = .ok (value, size value) ∧
      (encode value).length = size value) ∧
    ∀ bytes,
      (∀ value used, decode bytes = .ok (value, used) ↔
        bytes.take used = encode value ∧ used = size value) ∧
      ((∃ needed remaining, decode bytes = .error (.underrun needed remaining)) ↔
        ∃ value, bytes <+: encode value ∧ bytes ≠ encode value) ∧
      ((∃ value used, size value < used ∧
          decode bytes = .error (.violation (.overlongVarInt value used))) ↔
        ∀ value, ¬encode value <+: bytes ∧ ¬bytes <+: encode value) := by
  refine ⟨fun value rest ↦ ⟨decode_encode_append value rest, length_encode value⟩, fun bytes ↦
    ⟨?_, exists_underrun_iff, exists_overlong_iff⟩⟩
  intro value used
  rw [decode_eq_ok_iff, List.prefix_iff_eq_take, length_encode]
  constructor <;> rintro ⟨h, rfl⟩ <;> exact ⟨h.symm, rfl⟩

end CoinWire.VarInt
