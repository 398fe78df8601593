import Mathlib
import CoinWire.Peer

/-!
# Peers and sockets

A peer keeps its address in the long form and shows it to a socket in the short form where there is
one. Going to the socket and back loses nothing, for the short form says which bytes stood in front
of it. The other way round one thing is lost: a socket with a long address that is a mapped one
comes back with the short address. These are exactly the addresses that start with ten zeros and two
bytes `0xff`, and not those that only look like them.
-/

namespace CoinWire

namespace Octets

theorem ofBytes?_eq_some_iff {n : Nat} {bytes : Bytes} {octets : Octets n} :
    ofBytes? n bytes = some octets ↔ bytes = octets.toBytes := by
  constructor
  · intro h
    unfold ofBytes? at h
    split_ifs at h
    exact congrArg toBytes (Option.some.inj h)
  · rintro rfl
    exact ofBytes?_toBytes octets

end Octets

/-! ## Mapped addresses -/

namespace IPv6

variable {ip : IPv6} {short : IPv4}

/-- A long address has a short form exactly if it is a mapped one. -/
theorem toIPv4?_eq_some_iff :
    ip.toIPv4? = some short ↔ ip.toBytes = mappedStart ++ short.toBytes := by
  have hlength : mappedStart.length = 12 := rfl
  constructor
  · intro h
    unfold toIPv4? at h
    split_ifs at h with hstart
    calc
      ip.toBytes = ip.toBytes.take 12 ++ ip.toBytes.drop 12 := (List.take_append_drop 12 _).symm
      _ = mappedStart ++ short.toBytes := by rw [hstart, Octets.ofBytes?_eq_some_iff.1 h]
  · intro h
    rw [toIPv4?, h, List.take_left' hlength, List.drop_left' hlength, if_pos rfl,
      Octets.ofBytes?_toBytes]

theorem toIPv4?_ofIPv4 (short : IPv4) : (ofIPv4 short).toIPv4? = some short :=
  toIPv4?_eq_some_iff.2 rfl

/-- The short form of an address of the same bytes but for the twelfth, and of one that has zeros
in place of the bytes `0xff`: there is none. -/
example : toIPv4? ⟨[0, 0, 0, 0, 0, 0, 0, 0, 0, 0, 0xFF, 0xFE, 1, 2, 3, 4], rfl⟩ = none ∧
    toIPv4? ⟨[0, 0, 0, 0, 0, 0, 0, 0, 0, 0, 0, 0, 1, 2, 3, 4], rfl⟩ = none := by
  decide

end IPv6

namespace IpAddress

variable {ip : IPv6} {short : IPv4}

theorem ofIPv6_eq_v4_iff :
    ofIPv6 ip = .v4 short ↔ ip.toBytes = IPv6.mappedStart ++ short.toBytes := by
  rw [← IPv6.toIPv4?_eq_some_iff, ofIPv6]
  cases ip.toIPv4? <;> simp

theorem ofIPv6_eq_v6_iff :
    ofIPv6 ip = .v6 ip ↔ ∀ short : IPv4, ip.toBytes ≠ IPv6.mappedStart ++ short.toBytes := by
  simp only [ne_eq, ← IPv6.toIPv4?_eq_some_iff, ofIPv6]
  cases ip.toIPv4? <;> simp

/-- The long form of an address in either form. -/
theorem toIPv6_ofIPv6 (ip : IPv6) : (ofIPv6 ip).toIPv6 = ip := by
  cases hshort : ip.toIPv4? with
  | none => rw [ofIPv6, hshort, toIPv6]
  | some short =>
    rw [ofIPv6, hshort, toIPv6]
    exact Octets.ext (IPv6.toIPv4?_eq_some_iff.1 hshort).symm

end IpAddress

/-! ## Peers -/

namespace PeerAddress

/-- A peer made of the socket of a peer is that peer, but for the time, of which sockets know
nothing. The socket of a peer made of a socket is that socket, but that a mapped address comes back
as the short one that it maps. -/
theorem ofSocket_socket :
    (∀ peer : PeerAddress, ofSocket peer.socket peer.services = { peer with time := none }) ∧
    ∀ (port : UInt16) (services : UInt64),
      (∀ short : IPv4, (ofSocket ⟨.v4 short, port⟩ services).socket = ⟨.v4 short, port⟩) ∧
      ∀ ip : IPv6,
        (∀ short : IPv4, (ofSocket ⟨.v6 ip, port⟩ services).socket = ⟨.v4 short, port⟩ ↔
          ip.toBytes = [0, 0, 0, 0, 0, 0, 0, 0, 0, 0, 0xFF, 0xFF] ++ short.toBytes) ∧
        ((ofSocket ⟨.v6 ip, port⟩ services).socket = ⟨.v6 ip, port⟩ ↔
          ∀ short : IPv4,
            ip.toBytes ≠ [0, 0, 0, 0, 0, 0, 0, 0, 0, 0, 0xFF, 0xFF] ++ short.toBytes) := by
  have hsocket (ip : IPv6) (address : IpAddress) (port : UInt16) (services : UInt64) :
      (ofSocket ⟨.v6 ip, port⟩ services).socket = ⟨address, port⟩ ↔
        IpAddress.ofIPv6 ip = address := by
    simp [socket, ipAddress, ofSocket, IpAddress.toIPv6]
  refine ⟨?_, fun port services ↦ ⟨?_, fun ip ↦ ⟨?_, ?_⟩⟩⟩
  · intro peer
    rw [ofSocket, socket, ipAddress, IpAddress.toIPv6_ofIPv6]
  · intro short
    rw [socket, ipAddress, ofSocket, IpAddress.toIPv6, IpAddress.ofIPv6, IPv6.toIPv4?_ofIPv4]
  · intro short
    rw [hsocket]
    exact IpAddress.ofIPv6_eq_v4_iff
  · rw [hsocket]
    exact IpAddress.ofIPv6_eq_v6_iff

end PeerAddress

end CoinWire
