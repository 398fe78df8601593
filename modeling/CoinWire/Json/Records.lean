import CoinWire.Json.Parser
import CoinWire.Json.Printer
import CoinWire.Settings

/-!
# Records as JSON

A record is written as an object with its fields in order. It is read from an object in any
order, where unknown names are passed over and a known name may stand once only, or from an
array of its fields in order. Hashes, addresses and magics are strings; a choice between names
is one of the names, or an object with that name and `null`.
-/

namespace CoinWire

/-- Types with a JSON form. -/
class JsonForm (α : Type) where
  toJson : α → Json
  ofJson? : Json → Option α

namespace Json

/-! ## Members -/

/-- The members called `name`. -/
def named (name : String) (members : List (Option String × Json)) : List Json :=
  members.filterMap fun member ↦ if member.1 = some name then some member.2 else none

/-- Values of the fields `names`, in their order; none where a field is missing. -/
def fields? (names : List String) : Json → Option (List (Option Json))
  | .object members =>
    if members.all (·.1.isSome) && names.all fun name ↦ (named name members).length ≤ 1 then
      some (names.map fun name ↦ (named name members).head?)
    else none
  | .array elements =>
    if elements.length ≤ names.length then
      some ((List.range names.length).map fun index ↦ elements[index]?)
    else none
  | _ => none

/-- A field that must be there. -/
def required {α : Type} [JsonForm α] (field : Option Json) : Option α :=
  field.bind JsonForm.ofJson?

/-- A field that may be left out. -/
def orElse {α : Type} [JsonForm α] (absent : α) (field : Option Json) : Option α :=
  match field with
  | none => some absent
  | some json => JsonForm.ofJson? json

/-- A choice of one of several names. -/
def choice? {α : Type} (names : List (String × α)) : Json → Option α
  | .string (some name) => names.lookup name
  | .object [(some name, .null)] => names.lookup name
  | _ => none

def text? : Json → Option String
  | .string text => text
  | _ => none

/-- An integer from zero up to `limit`, which is left out. -/
def nat? (limit : Nat) : Json → Option Nat
  | .number (some value) => if 0 ≤ value ∧ value < limit then some value.toNat else none
  | _ => none

/-- Reads a text as a value of type `α` and writes it again. -/
def reformat? (α : Type) [JsonForm α] (text : String) : Option String := do
  let value : α ← JsonForm.ofJson? (← parse? text)
  return print (JsonForm.toJson value)

end Json

/-! ## Plain values -/

instance : JsonForm Bool where
  toJson := .bool
  ofJson?
    | .bool value => some value
    | _ => none

instance : JsonForm UInt16 where
  toJson value := .ofNat value.toNat
  ofJson? json := UInt16.ofNat <$> Json.nat? UInt16.size json

instance : JsonForm UInt32 where
  toJson value := .ofNat value.toNat
  ofJson? json := UInt32.ofNat <$> Json.nat? UInt32.size json

instance : JsonForm UInt64 where
  toJson value := .ofNat value.toNat
  ofJson? json := UInt64.ofNat <$> Json.nat? UInt64.size json

instance : JsonForm Int64 where
  toJson value := .ofInt value.toInt
  ofJson?
    | .number (some value) =>
      if Int64.minValue.toInt ≤ value ∧ value ≤ Int64.maxValue.toInt then some (Int64.ofInt value)
      else none
    | _ => none

instance : JsonForm String where
  toJson := .ofString
  ofJson? := Json.text?

instance {α : Type} [JsonForm α] : JsonForm (Option α) where
  toJson value := (value.map JsonForm.toJson).getD .null
  ofJson?
    | .null => some none
    | json => some <$> JsonForm.ofJson? json

instance {α : Type} [JsonForm α] : JsonForm (List α) where
  toJson values := .array (values.map JsonForm.toJson)
  ofJson?
    | .array elements => elements.mapM JsonForm.ofJson?
    | _ => none

/-! ## Records -/

/-- The text form, with its bytes reversed. -/
instance : JsonForm Hash where
  toJson hash := .ofString hash.toHex
  ofJson? json := do (Hash.ofHex (← Json.text? json)).toOption

/-- Four bytes in hexadecimal. -/
instance : JsonForm Magic where
  toJson magic := .ofString (Text.Hex.encode magic.toBytes)
  ofJson? json := do Octets.ofBytes? 4 (← (Text.Hex.decode (← Json.text? json)).toOption)

instance : JsonForm IPv6 where
  toJson ip := .ofString ip.text
  ofJson? json := do IPv6.ofText? (← Json.text? json)

instance : JsonForm OutPoint where
  toJson outPoint := .record [
    ("txid", JsonForm.toJson outPoint.txid),
    ("index", JsonForm.toJson outPoint.index)]
  ofJson? json := do
    match ← json.fields? ["txid", "index"] with
    | [txid, index] => return ⟨← Json.required txid, ← Json.required index⟩
    | _ => none

instance : JsonForm Header where
  toJson header := .record [
    ("version", JsonForm.toJson header.version),
    ("prev_block_hash", JsonForm.toJson header.prev),
    ("merkle_root", JsonForm.toJson header.merkleRoot),
    ("time", JsonForm.toJson header.time),
    ("difficulty_target", JsonForm.toJson header.bits),
    ("nonce", JsonForm.toJson header.nonce)]
  ofJson? json := do
    match ← json.fields?
      ["version", "prev_block_hash", "merkle_root", "time", "difficulty_target", "nonce"] with
    | [version, prev, merkleRoot, time, bits, nonce] =>
      return ⟨← Json.required version, ← Json.required prev, ← Json.required merkleRoot,
        ← Json.required time, ← Json.required bits, ← Json.required nonce⟩
    | _ => none

instance : JsonForm ParseConfig where
  toJson config := .record [
    ("lazy", JsonForm.toJson config.lazy),
    ("retain", JsonForm.toJson config.retain)]
  ofJson? json := do
    match ← json.fields? ["lazy", "retain"] with
    | [lazy, retain] => return ⟨← Json.required lazy, ← Json.required retain⟩
    | _ => none

namespace Network

def name : Network → String
  | .paycoin => "paycoin"
  | .peercoin => "peercoin"
  | .unitTest => "unit_test"

def names : List (String × Network) :=
  [Network.paycoin, .peercoin, .unitTest].map fun network ↦ (network.name, network)

end Network

instance : JsonForm Network where
  toJson network := .ofString network.name
  ofJson? := Json.choice? Network.names

instance : JsonForm NetworkParams where
  toJson params := .record [
    ("magic", JsonForm.toJson params.magic),
    ("port", JsonForm.toJson params.port),
    ("max_message_size", JsonForm.toJson params.maxMessageSize),
    ("genesis_hash", JsonForm.toJson params.genesis),
    ("protocol_version", JsonForm.toJson params.protocolVersion)]
  ofJson? json := do
    match ← json.fields?
      ["magic", "port", "max_message_size", "genesis_hash", "protocol_version"] with
    | [magic, port, maxMessageSize, genesis, protocolVersion] =>
      return ⟨← Json.required magic, ← Json.required port, ← Json.required maxMessageSize,
        ← Json.required genesis, ← Json.required protocolVersion⟩
    | _ => none

instance : JsonForm PeerAddress where
  toJson peer := .record [
    ("time", JsonForm.toJson peer.time),
    ("services", JsonForm.toJson peer.services),
    ("ip", JsonForm.toJson peer.ip),
    ("port", JsonForm.toJson peer.port)]
  ofJson? json := do
    match ← json.fields? ["time", "services", "ip", "port"] with
    | [time, services, ip, port] =>
      return ⟨← Json.orElse none time, ← Json.required services, ← Json.required ip,
        ← Json.required port⟩
    | _ => none

instance : JsonForm InventoryKind where
  toJson kind := .ofString kind.name
  ofJson? := Json.choice?
    ([InventoryKind.error, .transaction, .block, .filteredBlock].map fun kind ↦ (kind.name, kind))

instance : JsonForm InventoryItem where
  toJson item := .record [
    ("kind", JsonForm.toJson item.kind),
    ("hash", JsonForm.toJson item.hash)]
  ofJson? json := do
    match ← json.fields? ["kind", "hash"] with
    | [kind, hash] => return ⟨← Json.required kind, ← Json.required hash⟩
    | _ => none

instance : JsonForm Version where
  toJson version := .record [
    ("version", JsonForm.toJson version.version),
    ("services", JsonForm.toJson version.services),
    ("time", JsonForm.toJson version.time),
    ("receiver", JsonForm.toJson version.receiver),
    ("sender", JsonForm.toJson version.sender),
    ("nonce", JsonForm.toJson version.nonce),
    ("sub_ver", JsonForm.toJson version.userAgent),
    ("best_height", JsonForm.toJson version.height),
    ("relay", JsonForm.toJson version.relay)]
  ofJson? json := do
    match ← json.fields?
      ["version", "services", "time", "receiver", "sender", "nonce", "sub_ver", "best_height",
        "relay"] with
    | [version, services, time, receiver, sender, nonce, userAgent, height, relay] =>
      return ⟨← Json.required version, ← Json.required services, ← Json.required time,
        ← Json.required receiver, ← Json.required sender, ← Json.required nonce,
        ← Json.required userAgent, ← Json.required height, ← Json.required relay⟩
    | _ => none

instance : JsonForm Locator where
  toJson locator := .record [
    ("version", JsonForm.toJson locator.version),
    ("hashes", JsonForm.toJson locator.hashes),
    ("stop_hash", JsonForm.toJson locator.stop)]
  ofJson? json := do
    match ← json.fields? ["version", "hashes", "stop_hash"] with
    | [version, hashes, stop] =>
      return ⟨← Json.required version, ← Json.required hashes, ← Json.required stop⟩
    | _ => none

instance : JsonForm Settings where
  toJson settings := .record [
    ("network", JsonForm.toJson settings.network),
    ("parse", JsonForm.toJson settings.parse),
    ("checksum", JsonForm.toJson settings.checksum)]
  ofJson? json := do
    match ← json.fields? ["network", "parse", "checksum"] with
    | [network, parse, checksum] =>
      return ⟨← Json.orElse Settings.defaults.network network,
        ← Json.orElse Settings.defaults.parse parse,
        ← Json.orElse Settings.defaults.checksum checksum⟩
    | _ => none

end CoinWire
