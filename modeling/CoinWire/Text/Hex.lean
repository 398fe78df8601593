import CoinWire.Text.Quoted
import CoinWire.Text.Utf8

/-!
# Hexadecimal text

Two digits a byte, written in lower case and read in either. A text of odd length is refused
before its digits are looked at; otherwise the first bad digit is reported.
-/

namespace CoinWire.Text.Hex

def digit (value : Nat) : Char :=
  if value < 10 then Char.ofNat (48 + value) else Char.ofNat (87 + value)

def ofByte (byte : UInt8) : List Char :=
  [digit (byte.toNat / 16), digit (byte.toNat % 16)]

def encode (bytes : Bytes) : String :=
  String.ofList (bytes.flatMap ofByte)

/-- The value of an ASCII digit. -/
def value? (byte : UInt8) : Option UInt8 :=
  if 48 ≤ byte ∧ byte ≤ 57 then some (byte - 48)
  else if 97 ≤ byte ∧ byte ≤ 102 then some (byte - 87)
  else if 65 ≤ byte ∧ byte ≤ 70 then some (byte - 55)
  else none

/-- Why a text is no hexadecimal form. Digits are counted in bytes of the text. -/
inductive Fault where
  | oddLength
  | badDigit (byte : UInt8) (index : Nat)
deriving DecidableEq

/-- A bad digit is shown as the character whose code is its byte. -/
def Fault.message : Fault → String
  | .oddLength => "Odd number of digits"
  | .badDigit byte index =>
    s!"Invalid character {quotedChar (Char.ofNat byte.toNat)} at position {index}"

/-- Adds the decoded bytes to `read`, which is in reverse. -/
def decodeOnto (read : Bytes) (index : Nat) : Bytes → Except Fault Bytes
  | high :: low :: rest =>
    match value? high, value? low with
    | some h, some l => decodeOnto ((16 * h + l) :: read) (index + 2) rest
    | none, _ => .error (.badDigit high index)
    | some _, none => .error (.badDigit low (index + 1))
  | [_] => .error .oddLength
  | [] => .ok read.reverse

def decode (text : String) : Except Fault Bytes :=
  let bytes := Utf8.encode text
  if bytes.length % 2 = 1 then .error .oddLength else decodeOnto [] 0 bytes

end CoinWire.Text.Hex
