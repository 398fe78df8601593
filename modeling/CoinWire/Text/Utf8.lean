import CoinWire.Bytes

/-!
# UTF-8

A byte string is cut into pieces: characters, stretches that start no character, and a
character that the end of the string cuts short. Every byte belongs to one piece. Strict
reading reports the first piece that is no character; tolerant reading puts the replacement
character in its place.
-/

namespace CoinWire.Text.Utf8

inductive Piece where
  | char (c : Char)
  | invalid (bytes : Bytes)
  | truncated (bytes : Bytes)
deriving DecidableEq

def Piece.bytes : Piece → Bytes
  | .char c => String.utf8EncodeChar c
  | .invalid bytes => bytes
  | .truncated bytes => bytes

/-- How many bytes follow a first byte; none if it starts no character. -/
def following? (first : UInt8) : Option Nat :=
  if first < 0x80 then some 0
  else if first < 0xC2 then none
  else if first < 0xE0 then some 1
  else if first < 0xF0 then some 2
  else if first < 0xF5 then some 3
  else none

/-- The bits that a first byte adds to its character. -/
def leadBits (first : UInt8) : Nat :=
  if first < 0x80 then first.toNat
  else if first < 0xE0 then first.toNat % 0x20
  else if first < 0xF0 then first.toNat % 0x10
  else first.toNat % 0x08

/-- Least second byte. It rules out overlong forms. -/
def secondMin (first : UInt8) : UInt8 :=
  if first = 0xE0 then 0xA0 else if first = 0xF0 then 0x90 else 0x80

/-- Greatest second byte. It rules out surrogates and values past the last code point. -/
def secondMax (first : UInt8) : UInt8 :=
  if first = 0xED then 0x9F else if first = 0xF4 then 0x8F else 0xBF

/-- Finishes a character of which `taken` has been read and `missing` bytes are to come, the
next of them between `low` and `high`. -/
def complete : (missing : Nat) → (low high : UInt8) → (value : Nat) → (taken rest : Bytes) →
    Piece × Bytes
  | 0, _, _, value, _, rest => (.char (Char.ofNat value), rest)
  | _ + 1, _, _, _, taken, [] => (.truncated taken, [])
  | missing + 1, low, high, value, taken, byte :: rest =>
    if low ≤ byte ∧ byte ≤ high then
      complete missing 0x80 0xBF (64 * value + byte.toNat % 64) (taken ++ [byte]) rest
    else (.invalid taken, byte :: rest)

/-- The piece that starts with `first`, and what follows it. -/
def next (first : UInt8) (rest : Bytes) : Piece × Bytes :=
  match following? first with
  | none => (.invalid [first], rest)
  | some count =>
    complete count (secondMin first) (secondMax first) (leadBits first) [first] rest

theorem length_complete_le (missing : Nat) (low high : UInt8) (value : Nat)
    (taken rest : Bytes) :
    (complete missing low high value taken rest).2.length ≤ rest.length := by
  fun_induction complete missing low high value taken rest with
  | case1 => simp
  | case2 => simp
  | case3 _ _ _ _ _ _ _ _ ih =>
    simp only [List.length_cons]
    omega
  | case4 => simp

theorem length_next_le (first : UInt8) (rest : Bytes) :
    (next first rest).2.length ≤ rest.length := by
  unfold next
  split
  · simp
  · exact length_complete_le ..

/-- Adds the pieces of a byte string to `found`, which is in reverse. -/
def piecesOnto (found : List Piece) : Bytes → List Piece
  | [] => found.reverse
  | first :: rest =>
    have := length_next_le first rest
    piecesOnto ((next first rest).1 :: found) (next first rest).2
termination_by bytes => bytes.length

def pieces (bytes : Bytes) : List Piece :=
  piecesOnto [] bytes

theorem piecesOnto_eq (found : List Piece) (bytes : Bytes) :
    piecesOnto found bytes = found.reverse ++ pieces bytes := by
  induction hlength : bytes.length using Nat.strongRecOn generalizing found bytes with
  | _ length ih =>
    cases bytes with
    | nil => simp [pieces, piecesOnto]
    | cons first rest =>
      have hrest := length_next_le first rest
      have hless : (next first rest).2.length < length := by
        simp only [List.length_cons] at hlength
        omega
      rw [pieces, piecesOnto, piecesOnto, ih _ hless _ _ rfl, ih _ hless [_] _ rfl]
      simp

@[simp]
theorem pieces_nil : pieces [] = [] := by
  simp [pieces, piecesOnto]

theorem pieces_cons (first : UInt8) (rest : Bytes) :
    pieces (first :: rest) = (next first rest).1 :: pieces (next first rest).2 := by
  rw [pieces, piecesOnto, piecesOnto_eq]
  simp

/-! ## Strict and tolerant reading -/

/-- Why a byte string is no text, and where the first bad piece starts. -/
inductive Fault where
  | invalid (width index : Nat)
  | truncated (index : Nat)
deriving DecidableEq

def Fault.message : Fault → String
  | .invalid width index => s!"invalid utf-8 sequence of {width} bytes from index {index}"
  | .truncated index => s!"incomplete utf-8 byte sequence from index {index}"

/-- The characters of `pieces`, added to `read`, which is in reverse. -/
def charsOnto (read : List Char) (index : Nat) : List Piece → Except Fault (List Char)
  | [] => .ok read.reverse
  | .char c :: rest => charsOnto (c :: read) (index + c.utf8Size) rest
  | .invalid bytes :: _ => .error (.invalid bytes.length index)
  | .truncated _ :: _ => .error (.truncated index)

def decode (bytes : Bytes) : Except Fault String :=
  (charsOnto [] 0 (pieces bytes)).map String.ofList

/-- What a piece reads as when nothing is refused. -/
def Piece.shown : Piece → Char
  | .char c => c
  | _ => '\uFFFD'

/-- Tolerant reading: one replacement character for each piece that is no character. -/
def decodeLossy (bytes : Bytes) : String :=
  String.ofList ((pieces bytes).map Piece.shown)

def encode (text : String) : Bytes :=
  text.toList.flatMap String.utf8EncodeChar

end CoinWire.Text.Utf8
