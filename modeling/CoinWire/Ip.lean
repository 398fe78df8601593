import CoinWire.Bytes

/-!
# Internet addresses

Addresses have four or sixteen bytes. Each address of four bytes has a mapped form among those
of sixteen. The text of a long address leaves out its longest run of two or more zero groups;
its reader accepts every form of the text.
-/

namespace CoinWire

abbrev IPv4 := Octets 4

abbrev IPv6 := Octets 16

inductive IpAddress where
  | v4 (ip : IPv4)
  | v6 (ip : IPv6)
deriving DecidableEq

structure SocketAddress where
  ip : IpAddress
  port : UInt16
deriving DecidableEq

namespace IPv6

/-- What stands before a mapped address: ten zeros and two bytes `0xff`. -/
def mappedStart : Bytes :=
  List.replicate 10 0 ++ [0xFF, 0xFF]

def ofIPv4 (ip : IPv4) : IPv6 :=
  ⟨mappedStart ++ ip.toBytes, by simp [mappedStart, ip.length_toBytes]⟩

def toIPv4? (ip : IPv6) : Option IPv4 :=
  if ip.toBytes.take 12 = mappedStart then Octets.ofBytes? 4 (ip.toBytes.drop 12) else none

end IPv6

namespace IpAddress

/-- The sixteen-byte form. -/
def toIPv6 : IpAddress → IPv6
  | .v4 ip => IPv6.ofIPv4 ip
  | .v6 ip => ip

/-- The short form where there is one. -/
def ofIPv6 (ip : IPv6) : IpAddress :=
  match ip.toIPv4? with
  | some short => .v4 short
  | none => .v6 ip

end IpAddress

/-! ## Text -/

namespace IPv4

def text (ip : IPv4) : String :=
  ".".intercalate (ip.toBytes.map fun byte ↦ toString byte.toNat)

end IPv4

namespace IPv6

/-- Pairs of bytes, most significant first. -/
def groupsOf : Bytes → List Nat
  | high :: low :: rest => (256 * high.toNat + low.toNat) :: groupsOf rest
  | _ => []

def groupText (group : Nat) : String :=
  String.ofList (Nat.toDigits 16 group)

def groupsText (groups : List Nat) : String :=
  ":".intercalate (groups.map groupText)

/-- Start and length of the longest run of zero groups, the first of several. -/
def longestZeros (groups : List Nat) : Nat × Nat :=
  (List.range groups.length).foldl
    (fun best start ↦
      let length := ((groups.drop start).takeWhile (· == 0)).length
      if best.2 < length then (start, length) else best)
    (0, 0)

def text (ip : IPv6) : String :=
  match ip.toIPv4? with
  | some short => "::ffff:" ++ short.text
  | none =>
    let groups := groupsOf ip.toBytes
    let (start, length) := longestZeros groups
    if 1 < length then
      groupsText (groups.take start) ++ "::" ++ groupsText (groups.drop (start + length))
    else groupsText groups

/-! ## Reading text -/

/-- The value of a digit below `base`, which is at most sixteen. -/
def digit? (base : Nat) (c : Char) : Option Nat :=
  let value :=
    if '0' ≤ c ∧ c ≤ '9' then c.toNat - 48
    else if 'a' ≤ c ∧ c ≤ 'f' then c.toNat - 87
    else if 'A' ≤ c ∧ c ≤ 'F' then c.toNat - 55
    else base
  if value < base then some value else none

/-- A number of at least one and at most `limit` digits, and what follows it. -/
def number? (base limit : Nat) (text : List Char) : Option (List Nat × List Char) :=
  let digits := text.takeWhile fun c ↦ (digit? base c).isSome
  if 1 ≤ digits.length ∧ digits.length ≤ limit then
    some (digits.filterMap (digit? base), text.drop digits.length)
  else none

def ofDigits (base : Nat) (digits : List Nat) : Nat :=
  digits.foldl (fun value digit ↦ base * value + digit) 0

/-- A group of a long address. -/
def group? (text : List Char) : Option (Nat × List Char) := do
  let (digits, rest) ← number? 16 4 text
  return (ofDigits 16 digits, rest)

/-- A part of a short address, which is written without zeros in front. -/
def part? (text : List Char) : Option (Nat × List Char) := do
  let (digits, rest) ← number? 10 3 text
  let value := ofDigits 10 digits
  if value < 256 ∧ (digits.head? ≠ some 0 ∨ digits.length = 1) then some (value, rest) else none

def separator? (c : Char) : List Char → Option (List Char)
  | [] => none
  | first :: rest => if first = c then some rest else none

/-- A short address as two groups. -/
def short? (text : List Char) : Option (List Nat × List Char) := do
  let (a, text) ← part? text
  let (b, text) ← part? (← separator? '.' text)
  let (c, text) ← part? (← separator? '.' text)
  let (d, text) ← part? (← separator? '.' text)
  return ([256 * a + b, 256 * c + d], text)

/-- What `groupList` found: the groups, whether the last two were a short address, and what
follows. -/
structure GroupList where
  groups : List Nat
  endsShort : Bool
  rest : List Char

/-- Up to `limit` groups between colons. The last two may be a short address. -/
def groupList (limit : Nat) (first : Bool) (text : List Char) : GroupList :=
  match limit with
  | 0 => ⟨[], false, text⟩
  | limit + 1 =>
    match if first then some text else separator? ':' text with
    | none => ⟨[], false, text⟩
    | some item =>
      match if limit = 0 then none else short? item with
      | some (groups, rest) => ⟨groups, true, rest⟩
      | none =>
        match group? item with
        | none => ⟨[], false, text⟩
        | some (group, rest) =>
          let others := groupList limit false rest
          { others with groups := group :: others.groups }

/-- The eight groups of an address. -/
def groups? (text : List Char) : Option (List Nat) := do
  let front := groupList 8 true text
  if front.groups.length = 8 then
    if front.rest.isEmpty then some front.groups else none
  else if front.endsShort then none
  else
    let text ← separator? ':' (← separator? ':' front.rest)
    let back := groupList (7 - front.groups.length) true text
    if back.rest.isEmpty then
      some (front.groups ++
        List.replicate (8 - front.groups.length - back.groups.length) 0 ++ back.groups)
    else none

def ofText? (text : String) : Option IPv6 := do
  let groups ← groups? text.toList
  Octets.ofBytes? 16 (groups.flatMap fun group ↦ [UInt8.ofNat (group / 256), UInt8.ofNat group])

end IPv6

namespace SocketAddress

def text (address : SocketAddress) : String :=
  match address.ip with
  | .v4 ip => s!"{ip.text}:{address.port}"
  | .v6 ip => s!"[{ip.text}]:{address.port}"

end SocketAddress

end CoinWire
