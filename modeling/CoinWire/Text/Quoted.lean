import CoinWire.Text.Visible

/-!
# Quoted text in messages

Names that came from a peer are shown between quotes, with whatever could confuse a reader
written as an escape: the quote, the backslash, controls, and characters without a visible
form of their own.
-/

namespace CoinWire.Text

/-- A character as it stands between two `quote` characters. -/
def escape (quote : Char) (c : Char) : List Char :=
  if c = '\x00' then ['\\', '0']
  else if c = '\t' then ['\\', 't']
  else if c = '\r' then ['\\', 'r']
  else if c = '\n' then ['\\', 'n']
  else if c = '\\' || c = quote then ['\\', c]
  else if isVisible c then [c]
  else ['\\', 'u', '\x7b'] ++ Nat.toDigits 16 c.toNat ++ ['\x7d']

def doubleQuote : Char := '\x22'

def singleQuote : Char := '\x27'

/-- The text in double quotes. -/
def quoted (text : String) : String :=
  String.ofList (doubleQuote :: text.toList.flatMap (escape doubleQuote) ++ [doubleQuote])

/-- The character in single quotes. -/
def quotedChar (c : Char) : String :=
  String.ofList (singleQuote :: escape singleQuote c ++ [singleQuote])

end CoinWire.Text
