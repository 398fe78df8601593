import CoinWire.Bytes

/-!
# SHA-256

A message is padded to whole blocks of 64 bytes, and each block is mixed into a state of eight
words by 64 rounds. The digest is the last state.
-/

namespace CoinWire.Hash.Sha256

structure State where
  a : UInt32
  b : UInt32
  c : UInt32
  d : UInt32
  e : UInt32
  f : UInt32
  g : UInt32
  h : UInt32
deriving DecidableEq

namespace State

def initial : State where
  a := 0x6a09e667
  b := 0xbb67ae85
  c := 0x3c6ef372
  d := 0xa54ff53a
  e := 0x510e527f
  f := 0x9b05688c
  g := 0x1f83d9ab
  h := 0x5be0cd19

def add (s t : State) : State where
  a := s.a + t.a
  b := s.b + t.b
  c := s.c + t.c
  d := s.d + t.d
  e := s.e + t.e
  f := s.f + t.f
  g := s.g + t.g
  h := s.h + t.h

end State

/-! ## Rounds -/

def roundConstants : List UInt32 := [
  0x428a2f98, 0x71374491, 0xb5c0fbcf, 0xe9b5dba5, 0x3956c25b, 0x59f111f1, 0x923f82a4, 0xab1c5ed5,
  0xd807aa98, 0x12835b01, 0x243185be, 0x550c7dc3, 0x72be5d74, 0x80deb1fe, 0x9bdc06a7, 0xc19bf174,
  0xe49b69c1, 0xefbe4786, 0x0fc19dc6, 0x240ca1cc, 0x2de92c6f, 0x4a7484aa, 0x5cb0a9dc, 0x76f988da,
  0x983e5152, 0xa831c66d, 0xb00327c8, 0xbf597fc7, 0xc6e00bf3, 0xd5a79147, 0x06ca6351, 0x14292967,
  0x27b70a85, 0x2e1b2138, 0x4d2c6dfc, 0x53380d13, 0x650a7354, 0x766a0abb, 0x81c2c92e, 0x92722c85,
  0xa2bfe8a1, 0xa81a664b, 0xc24b8b70, 0xc76c51a3, 0xd192e819, 0xd6990624, 0xf40e3585, 0x106aa070,
  0x19a4c116, 0x1e376c08, 0x2748774c, 0x34b0bcb5, 0x391c0cb3, 0x4ed8aa4a, 0x5b9cca4f, 0x682e6ff3,
  0x748f82ee, 0x78a5636f, 0x84c87814, 0x8cc70208, 0x90befffa, 0xa4506ceb, 0xbef9a3f7, 0xc67178f2]

def rotateRight (word : UInt32) (count : UInt32) : UInt32 :=
  (word >>> count) ||| (word <<< (32 - count))

def round (s : State) (constant word : UInt32) : State :=
  let sum1 := rotateRight s.e 6 ^^^ rotateRight s.e 11 ^^^ rotateRight s.e 25
  let choice := (s.e &&& s.f) ^^^ (~~~s.e &&& s.g)
  let first := s.h + sum1 + choice + constant + word
  let sum0 := rotateRight s.a 2 ^^^ rotateRight s.a 13 ^^^ rotateRight s.a 22
  let majority := (s.a &&& s.b) ^^^ (s.a &&& s.c) ^^^ (s.b &&& s.c)
  { a := first + (sum0 + majority)
    b := s.a
    c := s.b
    d := s.c
    e := s.d + first
    f := s.e
    g := s.f
    h := s.g }

/-! ## Blocks -/

/-- The bytes as words, most significant byte first. Bytes that fill no word are dropped. -/
def words : Bytes → List UInt32
  | b0 :: b1 :: b2 :: b3 :: rest =>
    ((b0.toUInt32 <<< 24) ||| (b1.toUInt32 <<< 16) ||| (b2.toUInt32 <<< 8) ||| b3.toUInt32) ::
      words rest
  | _ => []

/-- The next word of a schedule whose last sixteen words are `window`. -/
def nextWord (window : Array UInt32) (index : Nat) : UInt32 :=
  let w15 := window.getD (index - 15) 0
  let w2 := window.getD (index - 2) 0
  let s0 := rotateRight w15 7 ^^^ rotateRight w15 18 ^^^ (w15 >>> 3)
  let s1 := rotateRight w2 17 ^^^ rotateRight w2 19 ^^^ (w2 >>> 10)
  window.getD (index - 16) 0 + s0 + window.getD (index - 7) 0 + s1

def extend (schedule : Array UInt32) : (count : Nat) → Array UInt32
  | 0 => schedule
  | count + 1 => extend (schedule.push (nextWord schedule schedule.size)) count

/-- The 64 words that the rounds of a block use. -/
def schedule (block : Bytes) : List UInt32 :=
  (extend (words block).toArray 48).toList

def compress (s : State) (block : Bytes) : State :=
  s.add ((roundConstants.zip (schedule block)).foldl (fun t pair ↦ round t pair.1 pair.2) s)

/-- Mixes in the whole blocks at the front of `bytes`. -/
def absorb (s : State) (bytes : Bytes) : State :=
  let block := bytes.take 64
  if h : block.length = 64 then
    have : (bytes.drop 64).length < bytes.length := by
      simp only [block, List.length_take] at h
      simp only [List.length_drop]
      omega
    absorb (compress s block) (bytes.drop 64)
  else s
termination_by bytes.length

/-- What follows a message of `length` bytes: a one bit, zeros, and the length in bits. -/
def padding (length : Nat) : Bytes :=
  0x80 :: List.replicate ((119 - length % 64) % 64) 0 ++ (Bytes.littleEndian 8 (8 * length)).reverse

def bigEndian (word : UInt32) : Bytes :=
  (Bytes.ofUInt32 word).reverse

def output (s : State) : Octets 32 where
  toBytes := bigEndian s.a ++ bigEndian s.b ++ bigEndian s.c ++ bigEndian s.d ++
    bigEndian s.e ++ bigEndian s.f ++ bigEndian s.g ++ bigEndian s.h
  length_toBytes := by simp [bigEndian]

def digest (message : Bytes) : Octets 32 :=
  output (absorb State.initial (message ++ padding message.length))

end CoinWire.Hash.Sha256
