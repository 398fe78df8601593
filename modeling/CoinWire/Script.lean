import CoinWire.Bytes

/-!
# Output scripts

Three shapes of script say who may spend an output. A wallet owns an output when it knows the
key, the key hash or the script hash that the shape holds. No script is run here.
-/

namespace CoinWire.Script

def opDup : UInt8 := 0x76

def opHash160 : UInt8 := 0xa9

def opEqualVerify : UInt8 := 0x88

def opEqual : UInt8 := 0x87

def opCheckSig : UInt8 := 0xac

/-- The form of an output script, with the bytes that tell the owner. -/
inductive Template where
  | payToPubKeyHash (hash : Bytes)
  | payToScriptHash (hash : Bytes)
  | payToPubKey (key : Bytes)
  | nonStandard
deriving DecidableEq

namespace Template

/-- What stands before the last bytes `tail`, if `bytes` ends in them and has `length` bytes in
front of them. -/
def between? (length : Nat) (tail bytes : Bytes) : Option Bytes :=
  if (bytes.take length).length = length ∧ bytes.drop length = tail then some (bytes.take length)
  else none

def payToPubKeyHash? : Bytes → Option Bytes
  | b0 :: b1 :: b2 :: rest =>
    if b0 = opDup ∧ b1 = opHash160 ∧ b2 = 20 then between? 20 [opEqualVerify, opCheckSig] rest
    else none
  | _ => none

def payToScriptHash? : Bytes → Option Bytes
  | b0 :: b1 :: rest =>
    if b0 = opHash160 ∧ b1 = 20 then between? 20 [opEqual] rest else none
  | _ => none

/-- A key is pushed whole, compressed or not. -/
def payToPubKey? : Bytes → Option Bytes
  | push :: rest =>
    if push = 33 ∨ push = 65 then between? push.toNat [opCheckSig] rest else none
  | _ => none

def classify (script : Bytes) : Template :=
  match payToPubKeyHash? script with
  | some hash => .payToPubKeyHash hash
  | none =>
    match payToScriptHash? script with
    | some hash => .payToScriptHash hash
    | none =>
      match payToPubKey? script with
      | some key => .payToPubKey key
      | none => .nonStandard

def isStandard : Template → Bool
  | .nonStandard => false
  | _ => true

end Template

/-- What a wallet knows. -/
structure Wallet where
  ownsKeyHash : Bytes → Bool
  ownsKey : Bytes → Bool
  ownsScriptHash : Bytes → Bool
  watches : Bytes → Bool

namespace Wallet

/-- The wallet can spend an output with this script. -/
def owns (wallet : Wallet) (script : Bytes) : Bool :=
  match Template.classify script with
  | .payToPubKeyHash hash => wallet.ownsKeyHash hash
  | .payToScriptHash hash => wallet.ownsScriptHash hash
  | .payToPubKey key => wallet.ownsKey key
  | .nonStandard => false

end Wallet

end CoinWire.Script
