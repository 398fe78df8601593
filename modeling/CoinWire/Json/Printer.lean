import CoinWire.Json.Value

/-!
# JSON text

Values are written without blanks. In strings the quote, the backslash and the control
characters below the blank are escaped; every other character stands as it is.
-/

namespace CoinWire.Json

def hexDigit (value : Nat) : Char :=
  if value < 10 then Char.ofNat (48 + value) else Char.ofNat (87 + value)

def escape (c : Char) : List Char :=
  if c = '\x22' then ['\\', '\x22']
  else if c = '\\' then ['\\', '\\']
  else if c = '\x08' then ['\\', 'b']
  else if c = '\x0C' then ['\\', 'f']
  else if c = '\n' then ['\\', 'n']
  else if c = '\r' then ['\\', 'r']
  else if c = '\t' then ['\\', 't']
  else if c.toNat < 0x20 then
    ['\\', 'u', '0', '0', hexDigit (c.toNat / 16), hexDigit (c.toNat % 16)]
  else [c]

def quote (text : String) : String :=
  String.ofList ('\x22' :: text.toList.flatMap escape ++ ['\x22'])

mutual

def print : Json → String
  | .null => "null"
  | .bool true => "true"
  | .bool false => "false"
  | .number (some value) => toString value
  | .number none => "null"
  | .string (some text) => quote text
  | .string none => "null"
  | .array elements => "[" ++ ",".intercalate (printEach elements) ++ "]"
  | .object members => "\x7b" ++ ",".intercalate (printMembers members) ++ "\x7d"

def printEach : List Json → List String
  | [] => []
  | element :: rest => print element :: printEach rest

def printMembers : List (Option String × Json) → List String
  | [] => []
  | member :: rest => printMember member :: printMembers rest

def printMember : Option String × Json → String
  | (name, value) => quote (name.getD "") ++ ":" ++ print value

end

end CoinWire.Json
