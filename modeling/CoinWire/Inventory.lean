import CoinWire.Reader

/-!
# Inventory

Peers tell each other what they have by kind and hash.
-/

namespace CoinWire

inductive InventoryKind where
  /-- Data of no interest. -/
  | error
  | transaction
  | block
  /-- A block reduced to what a filter lets through. -/
  | filteredBlock
deriving DecidableEq

namespace InventoryKind

def toUInt32 : InventoryKind → UInt32
  | .error => 0
  | .transaction => 1
  | .block => 2
  | .filteredBlock => 3

def ofUInt32 (value : UInt32) : Except CodecError InventoryKind :=
  if value = 0 then .ok .error
  else if value = 1 then .ok .transaction
  else if value = 2 then .ok .block
  else if value = 3 then .ok .filteredBlock
  else .error (.violation (.unknownInventoryKind value))

def name : InventoryKind → String
  | .error => "Error"
  | .transaction => "Transaction"
  | .block => "Block"
  | .filteredBlock => "FilteredBlock"

end InventoryKind

structure InventoryItem where
  kind : InventoryKind
  hash : Octets 32
deriving DecidableEq

namespace InventoryItem

/-- Number of bytes on the wire. -/
def size : Nat := 36

def wire (item : InventoryItem) : Bytes :=
  Bytes.ofUInt32 item.kind.toUInt32 ++ item.hash.toBytes

def read : Read InventoryItem := do
  let kind ← MonadExcept.ofExcept (InventoryKind.ofUInt32 (← Read.uint32))
  let hash ← Read.take 32
  return ⟨kind, hash⟩

end InventoryItem

end CoinWire
