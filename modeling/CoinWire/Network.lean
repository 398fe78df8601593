import CoinWire.Hash

/-!
# Networks

Networks differ in the four bytes that open a frame, in their port and in their first block.
-/

namespace CoinWire

abbrev Magic := Octets 4

inductive Network where
  | paycoin
  | peercoin
  | unitTest
deriving DecidableEq, Inhabited

/-- What framing needs to know of a network. -/
structure NetworkParams where
  /-- Four bytes that open every frame. -/
  magic : Magic
  /-- Default port of a peer. -/
  port : UInt16
  /-- Largest payload that a frame may announce. -/
  maxMessageSize : UInt32
  /-- Hash of the first block. -/
  genesis : Hash
  protocolVersion : UInt32
deriving DecidableEq

namespace Network

def magic : Network → Magic
  | .paycoin => ⟨[0xAA, 0xAA, 0xAA, 0xAA], rfl⟩
  | .peercoin => ⟨[0xE6, 0xE8, 0xE9, 0xE5], rfl⟩
  | .unitTest => ⟨[0x0B, 0x11, 0x09, 0x07], rfl⟩

def port : Network → UInt16
  | .paycoin => 9901
  | .peercoin => 9901
  | .unitTest => 18333

def paycoinGenesis : String :=
  "00000e5695fbec8e36c10064491946ee3b723a9fa640fc0e25d3b8e4737e53e3"

def peercoinGenesis : String :=
  "0000000032fe677166d54963b62a4677d8957e87c508eaa4fd7eb1c880cd27e3"

/-- Text form of the hash of the first block. -/
def genesis : Network → String
  | .paycoin => paycoinGenesis
  | .peercoin => peercoinGenesis
  | .unitTest => paycoinGenesis

/-- 32 MB. -/
def maxMessageSize : UInt32 := 0x02000000

def protocolVersion : UInt32 := 70001

def params (network : Network) : NetworkParams where
  magic := network.magic
  port := network.port
  maxMessageSize := maxMessageSize
  genesis := (Hash.ofHex network.genesis).toOption.getD Hash.zero
  protocolVersion := protocolVersion

end Network

instance : Inhabited NetworkParams := ⟨(default : Network).params⟩

end CoinWire
