import CoinWire.Json.Value
import CoinWire.Text.Scan

/-!
# Reading JSON

The whole text must be one value between blanks.
-/

namespace CoinWire.Json

open Text

namespace Parser

def isBlank (c : Char) : Bool :=
  c == ' ' || c == '\t' || c == '\n' || c == '\r'

def blanks : Scan Unit :=
  discard (Scan.span isBlank)

/-! ## Numbers -/

/-- Digits without a zero in front of others. -/
def natural : Scan Nat := do
  let digits ← Scan.span1 isDigit
  if digits.head? = some '0' ∧ 1 < digits.length then failure
  else return ofDigits 10 digits

def fraction : Scan Unit := do
  Scan.char '.'
  discard (Scan.span1 isDigit)

def exponent : Scan Unit := do
  discard (Scan.one fun c ↦ c == 'e' || c == 'E')
  discard (Scan.option (Scan.one fun c ↦ c == '+' || c == '-'))
  discard (Scan.span1 isDigit)

/-- Refuses a part that has begun and does not end well. -/
def optional (first : Char → Bool) (part : Scan Unit) : Scan Bool := do
  match ← Scan.peek? with
  | none => return false
  | some c =>
    if first c then
      part
      return true
    else return false

/-- A number has an integer value if it has neither fraction nor exponent. Minus zero has
none. -/
def number : Scan (Option Int) := do
  let negative := (← Scan.option (Scan.char '-')).isSome
  let value ← natural
  let hasFraction ← optional (· == '.') fraction
  let hasExponent ← optional (fun c ↦ c == 'e' || c == 'E') exponent
  if hasFraction || hasExponent || (negative && value == 0) then return none
  else return some (if negative then -value else value)

/-! ## Strings -/

def hex4 : Scan Nat := do
  return ofDigits 16 (← Scan.exactly 4 isHexDigit)

/-- The character of a single-letter escape. -/
def escaped? (c : Char) : Option Char :=
  if c = '\x22' ∨ c = '\\' ∨ c = '/' then some c
  else if c = 'b' then some '\x08'
  else if c = 'f' then some '\x0C'
  else if c = 'n' then some '\n'
  else if c = 'r' then some '\r'
  else if c = 't' then some '\t'
  else none

/-- The second half of a surrogate pair. -/
def lowHalf : Scan Nat := do
  Scan.literal ['\\', 'u']
  let low ← hex4
  if 0xDC00 ≤ low ∧ low < 0xE000 then return low else failure

/-- The character of four hexadecimal digits, or of two times four; none for half a pair. -/
def codePoint : Scan (Option Char) := do
  let unit ← hex4
  if unit < 0xD800 ∨ 0xE000 ≤ unit then return some (Char.ofNat unit)
  else if 0xDC00 ≤ unit then return none
  else
    match ← Scan.option lowHalf with
    | some low => return some (Char.ofNat (0x10000 + 0x400 * (unit - 0xD800) + (low - 0xDC00)))
    | none => return none

/-- The character after a backslash; none for half a surrogate pair. -/
def escape : Scan (Option Char) := do
  let letter ← Scan.one fun _ ↦ true
  if letter = 'u' then codePoint else return some (← escaped? letter)

/-- The rest of a string after its first quote, at most `fuel` characters of it. `read` is in
reverse; it is none once there was half a surrogate pair. -/
def stringOnto (fuel : Nat) (read : Option (List Char)) : Scan (Option String) := do
  match fuel with
  | 0 => failure
  | fuel + 1 =>
    let c ← Scan.one fun c ↦ 0x20 ≤ c.toNat
    if c = '\x22' then return read.map fun chars ↦ String.ofList chars.reverse
    else if c = '\\' then
      let value ← escape
      stringOnto fuel do return (← value) :: (← read)
    else stringOnto fuel (read.map (c :: ·))

def string : Scan (Option String) := do
  Scan.char '\x22'
  stringOnto ((← Scan.ahead).length + 1) (some [])

/-! ## Values -/

def keyword (name : String) (answer : Json) : Scan Json := do
  Scan.literal name.toList
  return answer

mutual

/-- A value, with the blanks before it. Each step down or along uses up fuel, and no text needs
more than two for a character. -/
def value (fuel : Nat) : Scan Json := do
  match fuel with
  | 0 => failure
  | fuel + 1 =>
    blanks
    match ← Scan.peek? with
    | none => failure
    | some c =>
      if c = 'n' then keyword "null" .null
      else if c = 't' then keyword "true" (.bool true)
      else if c = 'f' then keyword "false" (.bool false)
      else if c = '\x22' then return .string (← string)
      else if c = '[' then do
        Scan.char '['
        blanks
        if (← Scan.peek?) = some ']' then do
          Scan.char ']'
          return .array []
        else return .array (← elements fuel)
      else if c = '\x7b' then do
        Scan.char '\x7b'
        blanks
        if (← Scan.peek?) = some '\x7d' then do
          Scan.char '\x7d'
          return .object []
        else return .object (← members fuel)
      else return .number (← number)

/-- At least one element, up to the closing bracket. -/
def elements (fuel : Nat) : Scan (List Json) := do
  match fuel with
  | 0 => failure
  | fuel + 1 =>
    let first ← value fuel
    blanks
    let next ← Scan.one fun c ↦ c == ',' || c == ']'
    if next = ',' then return first :: (← elements fuel) else return [first]

/-- At least one member, up to the closing brace. -/
def members (fuel : Nat) : Scan (List (Option String × Json)) := do
  match fuel with
  | 0 => failure
  | fuel + 1 =>
    blanks
    let name ← string
    blanks
    Scan.char ':'
    let first ← value fuel
    blanks
    let next ← Scan.one fun c ↦ c == ',' || c == '\x7d'
    if next = ',' then return (name, first) :: (← members fuel) else return [(name, first)]

end

def document : Scan Json := do
  let result ← value (2 * (← Scan.ahead).length + 2)
  blanks
  return result

end Parser

def parse? (text : String) : Option Json :=
  Parser.document.whole? text

end CoinWire.Json
