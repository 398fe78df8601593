import CoinWire.Error
import CoinWire.Hash.Sha256

/-!
# Hashes

Blocks and transactions are named by the double SHA-256 of their encoding. A hash is kept in
the order of the wire and shown in hexadecimal with its bytes reversed.
-/

namespace CoinWire

abbrev Hash := Octets 32

namespace Hash

/-- The hash of no block and no transaction. -/
def zero : Hash :=
  Octets.zero 32

/-- SHA-256 of the SHA-256. -/
def double (bytes : Bytes) : Hash :=
  Sha256.digest (Sha256.digest bytes).toBytes

/-- The text form. -/
def toHex (hash : Hash) : String :=
  Text.Hex.encode hash.reverse.toBytes

/-- The hash of nothing. -/
example : (double []).toHex =
    "56944c5d3f98413ef45cf54545538103cc9f298e0575820ad3591376e2e0f65d" := by
  decide +kernel

/-- Reads the text form. -/
def ofHex (text : String) : Except CodecError Hash :=
  match Text.Hex.decode text with
  | .error fault => .error (.violation (.invalidHashHex fault))
  | .ok bytes =>
    match Octets.ofBytes? 32 bytes with
    | none => .error (.violation (.hashLength bytes.length))
    | some octets => .ok octets.reverse

end Hash

end CoinWire
