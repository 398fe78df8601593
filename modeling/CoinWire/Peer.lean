import CoinWire.Ip
import CoinWire.Reader

/-!
# Peer addresses

A peer is announced by its services, its address in the long form and its port. In lists of
peers the time it was last seen comes first; in version messages there is none.
-/

namespace CoinWire

structure PeerAddress where
  /-- When the peer was last seen. -/
  time : Option UInt32
  services : UInt64
  ip : IPv6
  port : UInt16
deriving DecidableEq

namespace PeerAddress

/-- Size without the time. -/
def size : Nat := 26

/-- Size with the time. -/
def timedSize : Nat := 30

def ofSocket (address : SocketAddress) (services : UInt64) : PeerAddress :=
  ⟨none, services, address.ip.toIPv6, address.port⟩

def localhost (port : UInt16) (services : UInt64) : PeerAddress :=
  ofSocket ⟨.v4 ⟨[127, 0, 0, 1], rfl⟩, port⟩ services

def withTime (time : UInt32) (peer : PeerAddress) : PeerAddress :=
  { peer with time := some time }

/-- The address, in the short form where there is one. -/
def ipAddress (peer : PeerAddress) : IpAddress :=
  IpAddress.ofIPv6 peer.ip

def socket (peer : PeerAddress) : SocketAddress :=
  ⟨peer.ipAddress, peer.port⟩

def encodedLength (peer : PeerAddress) : Nat :=
  if peer.time.isSome then timedSize else size

def wire (peer : PeerAddress) : Bytes :=
  (peer.time.map Bytes.ofUInt32).getD [] ++ Bytes.ofUInt64 peer.services ++
    peer.ip.toBytes ++ Bytes.ofPort peer.port

/-- Reads a peer, after its time if it is `timed`. -/
def read (timed : Bool) : Read PeerAddress := do
  let time ← if timed then some <$> Read.uint32 else pure none
  let services ← Read.uint64
  let ip ← Read.take 16
  let port ← Read.port
  return ⟨time, services, ip, port⟩

end PeerAddress

end CoinWire
