import CoinWire.Node
import CoinWire.Script

/-!
# Transaction outputs

An output is an amount and the script that locks it. The amount is signed on the wire.
-/

namespace CoinWire

/-- The fields of an output. -/
structure TxOut where
  value : Int64
  script : Bytes
deriving DecidableEq

namespace TxOut

/-- Size of the smallest output: a value and an empty script. -/
def minSize : Nat := 9

def wire (output : TxOut) : Bytes :=
  Bytes.ofInt64 output.value ++ output.script.counted

instance : Layout TxOut where
  scan := do
    Read.skip 8
    Read.skipCounted
  parse _ := do
    let value ← Read.int64
    let script ← Read.countedBytes
    return ⟨value, script⟩
  encodedLength output := 8 + Bytes.countedSize output.script.length
  encode := do return (← get).wire
  adopt _ output := output
  compare := Compared.plain

end TxOut

abbrev Output := Node TxOut

namespace Output

def new (value : Int64) (script : Bytes) : Output :=
  Node.ofFields ⟨value, script⟩ ParseConfig.eager

def value : Access Output Int64 := do
  return (← Node.fields).value

def script : Access Output Bytes := do
  return (← Node.fields).script

def setValue (value : Int64) : Access Output Unit :=
  Node.edit (modify fun (output : TxOut) ↦ { output with value })

def setScript (script : Bytes) : Access Output Unit :=
  Node.edit (modify fun (output : TxOut) ↦ { output with script })

/-- Asks `question` of the script. A script that cannot be read answers no. -/
def ask (question : Bytes → Bool) : Access Output Bool := fun output ↦
  match script output with
  | .ok script output' => .ok (question script) output'
  | .error _ output' => .ok false output'

/-- The wallet can spend the output. -/
def isMine (wallet : Script.Wallet) : Access Output Bool :=
  ask wallet.owns

/-- The wallet watches the script of the output. -/
def isWatched (wallet : Script.Wallet) : Access Output Bool :=
  ask wallet.watches

def isMineOrWatched (wallet : Script.Wallet) : Access Output Bool := do
  if ← isMine wallet then return true else isWatched wallet

end Output

end CoinWire
