import CoinWire.Text.Scan
import CoinWire.Toml.Value

/-!
# Reading TOML

A document is a sequence of lines: entries, headers and comments. Strings have four forms,
numbers five, and times four; all are checked in full.
-/

namespace CoinWire.Toml

open Text

namespace Parser

/-! ## Lines -/

def isBlank (c : Char) : Bool :=
  c == ' ' || c == '\t'

def blanks : Scan Unit :=
  discard (Scan.span isBlank)

def newline : Scan Unit :=
  Scan.char '\n' <|> Scan.literal ['\r', '\n']

/-- No control character but the tab. -/
def isPlain (c : Char) : Bool :=
  c == '\t' || (0x20 ≤ c.toNat && c.toNat != 0x7F)

def comment : Scan Unit := do
  Scan.char '#'
  discard (Scan.span isPlain)

/-- The end of a line that has nothing more to say. -/
def endOfLine : Scan Unit := do
  blanks
  discard (Scan.option comment)
  newline <|> Scan.atEnd

/-- Blanks, comments and ends of lines, as between the elements of an array. -/
def gaps (fuel : Nat) : Scan Unit := do
  match fuel with
  | 0 => return ()
  | fuel + 1 =>
    blanks
    match ← Scan.peek? with
    | some '#' => do
      comment
      newline
      gaps fuel
    | some '\n' => do
      newline
      gaps fuel
    | some '\r' => do
      newline
      gaps fuel
    | _ => return ()

/-! ## Strings -/

def quote : Char := '\x22'

def apostrophe : Char := '\x27'

/-- The character that hexadecimal digits after `\u` or `\U` stand for. -/
def codePoint (count : Nat) : Scan Char := do
  let value := ofDigits 16 (← Scan.exactly count isHexDigit)
  if value < 0xD800 ∨ (0xE000 ≤ value ∧ value < 0x110000) then return Char.ofNat value
  else failure

/-- What follows a backslash. -/
def escaped : Scan Char := do
  let c ← Scan.one fun _ ↦ true
  if c = 'b' then return '\x08'
  else if c = 't' then return '\t'
  else if c = 'n' then return '\n'
  else if c = 'f' then return '\x0C'
  else if c = 'r' then return '\r'
  else if c = quote ∨ c = '\\' then return c
  else if c = 'u' then codePoint 4
  else if c = 'U' then codePoint 8
  else failure

/-- The rest of a string of one line, up to the quote; `read` is in reverse. -/
def basicOnto (fuel : Nat) (read : List Char) : Scan String := do
  match fuel with
  | 0 => failure
  | fuel + 1 =>
    let c ← Scan.one isPlain
    if c = quote then return String.ofList read.reverse
    else if c = '\\' then basicOnto fuel ((← escaped) :: read)
    else basicOnto fuel (c :: read)

def basicString : Scan String := do
  Scan.char quote
  basicOnto ((← Scan.ahead).length + 1) []

def literalString : Scan String := do
  Scan.char apostrophe
  let chars ← Scan.span fun c ↦ isPlain c && c != apostrophe
  Scan.char apostrophe
  return String.ofList chars

def blankLines (fuel : Nat) : Scan Unit := do
  match fuel with
  | 0 => return ()
  | fuel + 1 =>
    blanks
    if (← Scan.option newline).isSome then blankLines fuel

/-- A backslash at the end of a line takes away all blanks and ends of lines up to the next
character. -/
def lineJoin : Scan Unit := do
  blanks
  newline
  blankLines (← Scan.ahead).length

/-- The rest of a string of several lines, up to three `mark`s. Two more marks in front of these
belong to the string. -/
def multilineOnto (mark : Char) (escapes : Bool) (fuel : Nat) (read : List Char) :
    Scan String := do
  match fuel with
  | 0 => failure
  | fuel + 1 =>
    let marks := (← Scan.ahead).takeWhile (· == mark)
    if 3 ≤ marks.length then do
      if 5 < marks.length then failure
      discard (Scan.exactly marks.length (· == mark))
      return String.ofList (List.replicate (marks.length - 3) mark ++ read).reverse
    else
      match ← Scan.option newline with
      | some _ => multilineOnto mark escapes fuel ('\n' :: read)
      | none =>
        let c ← Scan.one isPlain
        if escapes && c == '\\' then
          match ← Scan.option lineJoin with
          | some _ => multilineOnto mark escapes fuel read
          | none => multilineOnto mark escapes fuel ((← escaped) :: read)
        else multilineOnto mark escapes fuel (c :: read)

def multiline (mark : Char) (escapes : Bool) : Scan String := do
  Scan.literal [mark, mark, mark]
  discard (Scan.option newline)
  multilineOnto mark escapes ((← Scan.ahead).length + 1) []

def string : Scan String := do
  if [quote, quote, quote].isPrefixOf (← Scan.ahead) then multiline quote true
  else if [apostrophe, apostrophe, apostrophe].isPrefixOf (← Scan.ahead) then
    multiline apostrophe false
  else if (← Scan.peek?) = some quote then basicString
  else literalString

/-! ## Numbers -/

def isBinary (c : Char) : Bool :=
  c == '0' || c == '1'

def isOctal (c : Char) : Bool :=
  '0' ≤ c && c ≤ '7'

/-- Digits with single underscores between them. The underscores are left out. -/
def grouped (isMember : Char → Bool) : Scan (List Char) := do
  let chars ← Scan.span1 fun c ↦ isMember c || c == '_'
  if chars.head? = some '_' ∨ chars.getLast? = some '_' ∨ doubled chars then failure
  else return chars.filter (· != '_')
where
  doubled : List Char → Bool
    | '_' :: '_' :: _ => true
    | _ :: rest => doubled rest
    | [] => false

def sign : Scan Bool := do
  return (← Scan.option (Scan.one fun c ↦ c == '+' || c == '-')) == some '-'

/-- Decimal digits without a zero in front of others. -/
def decimal : Scan (List Char) := do
  let digits ← grouped isDigit
  if digits.head? = some '0' ∧ 1 < digits.length then failure else return digits

def based (base : Nat) (letter : Char) (isMember : Char → Bool) : Scan Nat := do
  Scan.literal ['0', letter]
  return ofDigits base (← grouped isMember)

/-- Integers have 64 bits, one of them for the sign. -/
def integerLimit : Nat := 0x8000000000000000

def integer : Scan Unit := do
  let unsigned := based 16 'x' isHexDigit <|> based 8 'o' isOctal <|> based 2 'b' isBinary
  match ← Scan.option unsigned with
  | some value => if value < integerLimit then return () else failure
  | none =>
    let negative ← sign
    let value := ofDigits 10 (← decimal)
    if value < integerLimit + (if negative then 1 else 0) then return () else failure

/-- The least value that is rounded to infinity in binary64. -/
def overflow : Nat :=
  Nat.pow 2 1024 - Nat.pow 2 970

/-- Decides `digits * 10 ^ exponent < overflow` without making large powers of ten. -/
def isFinite (digits : List Char) (exponent : Int) : Bool :=
  let digits := digits.dropWhile (· == '0')
  let scale := digits.length + exponent
  if digits.isEmpty || scale < 309 then true
  else if 309 < scale then false
  else if 0 ≤ exponent then ofDigits 10 digits * Nat.pow 10 exponent.toNat < overflow
  else ofDigits 10 digits < overflow * Nat.pow 10 (-exponent).toNat

def exponent : Scan Int := do
  discard (Scan.one fun c ↦ c == 'e' || c == 'E')
  let negative ← sign
  let value := ofDigits 10 (← grouped isDigit)
  return if negative then -value else value

def float : Scan Unit := do
  let negative ← sign
  if (← Scan.option (Scan.literal "inf".toList <|> Scan.literal "nan".toList)).isSome then
    return ()
  let whole ← decimal
  let part ← Scan.option do
    Scan.char '.'
    grouped isDigit
  let power ← Scan.option exponent
  if part.isNone && power.isNone then failure
  let part := part.getD []
  if negative || isFinite (whole ++ part) (power.getD 0 - part.length) then return ()
  else failure

/-! ## Times -/

def digits (count low high : Nat) : Scan Nat := do
  let value := ofDigits 10 (← Scan.exactly count isDigit)
  if low ≤ value ∧ value ≤ high then return value else failure

def isLeap (year : Nat) : Bool :=
  year % 4 == 0 && (year % 100 != 0 || year % 400 == 0)

def daysIn (year month : Nat) : Nat :=
  if month = 2 then (if isLeap year then 29 else 28)
  else if month = 4 ∨ month = 6 ∨ month = 9 ∨ month = 11 then 30
  else 31

def date : Scan Unit := do
  let year ← digits 4 0 9999
  Scan.char '-'
  let month ← digits 2 1 12
  Scan.char '-'
  discard (digits 2 1 (daysIn year month))

def timeOfDay : Scan Unit := do
  discard (digits 2 0 23)
  Scan.char ':'
  discard (digits 2 0 59)
  Scan.char ':'
  discard (digits 2 0 60)
  discard (Scan.option do
    Scan.char '.'
    Scan.span1 isDigit)

def offset : Scan Unit := do
  let first ← Scan.one fun c ↦ c == 'Z' || c == 'z' || c == '+' || c == '-'
  if first = 'Z' ∨ first = 'z' then return ()
  else do
    discard (digits 2 0 23)
    Scan.char ':'
    discard (digits 2 0 59)

def dateTime : Scan Unit := do
  date
  discard (Scan.option do
    discard (Scan.one fun c ↦ c == 'T' || c == 't' || c == ' ')
    timeOfDay
    discard (Scan.option offset))

/-! ## Keys -/

def isBare (c : Char) : Bool :=
  isDigit c || ('a' ≤ c && c ≤ 'z') || ('A' ≤ c && c ≤ 'Z') || c == '_' || c == '-'

def simpleKey : Scan String := do
  match ← Scan.peek? with
  | none => failure
  | some c =>
    if c = quote then basicString
    else if c = apostrophe then literalString
    else return String.ofList (← Scan.span1 isBare)

/-- Further parts of a dotted key. -/
def keyParts (fuel : Nat) : Scan (List String) := do
  match fuel with
  | 0 => failure
  | fuel + 1 =>
    blanks
    let part ← simpleKey
    blanks
    if (← Scan.peek?) = some '.' then do
      Scan.char '.'
      return part :: (← keyParts fuel)
    else return [part]

/-- Values and keys of more levels are refused. -/
def maxDepth : Nat := 80

/-- A dotted key: the way to a table and the last part. -/
def key : Scan (List String × String) := do
  let parts ← keyParts ((← Scan.ahead).length + 1)
  match parts.getLast? with
  | none => failure
  | some last =>
    if parts.length < maxDepth then return (parts.dropLast, last) else failure

/-! ## Values -/

def keyword (name : String) (answer : Toml) : Scan Toml := do
  Scan.literal name.toList
  return answer

def isNumeric (c : Char) : Bool :=
  isDigit c || c == '+' || c == '-' || c == 'i' || c == 'n'

mutual

/-- A value inside `depth` others. Each step down or along uses up fuel, and no text needs more
than two for a character. -/
def value (depth fuel : Nat) : Scan Toml := do
  match fuel with
  | 0 => failure
  | fuel + 1 =>
    match ← Scan.peek? with
    | none => failure
    | some c =>
      if c = quote ∨ c = apostrophe then return .string (← string)
      else if c = 't' then keyword "true" (.bool true)
      else if c = 'f' then keyword "false" (.bool false)
      else if (c = '[' ∨ c = '\x7b') ∧ maxDepth ≤ depth + 1 then failure
      else if c = '[' then do
        Scan.char '['
        return .array (← elements (depth + 1) fuel)
      else if c = '\x7b' then do
        Scan.char '\x7b'
        blanks
        if (← Scan.peek?) = some '\x7d' then do
          Scan.char '\x7d'
          return .table .braces []
        else return .table .braces (← entries (depth + 1) fuel (Table.empty .braces)).entries
      else if isNumeric c then do
        dateTime <|> timeOfDay <|> float <|> integer
        return .measure
      else failure

/-- Elements up to the closing bracket, with or without a comma behind the last. -/
def elements (depth fuel : Nat) : Scan (List Toml) := do
  match fuel with
  | 0 => failure
  | fuel + 1 =>
    gaps ((← Scan.ahead).length + 1)
    if (← Scan.peek?) = some ']' then do
      Scan.char ']'
      return []
    else
      let first ← value depth fuel
      gaps ((← Scan.ahead).length + 1)
      let next ← Scan.one fun c ↦ c == ',' || c == ']'
      if next = ',' then return first :: (← elements depth fuel) else return [first]

/-- At least one entry, up to the closing brace. -/
def entries (depth fuel : Nat) (table : Table) : Scan Table := do
  match fuel with
  | 0 => failure
  | fuel + 1 =>
    let (path, last) ← key
    Scan.char '='
    blanks
    let value ← value depth fuel
    let table ← table.addEntry path last value
    blanks
    let next ← Scan.one fun c ↦ c == ',' || c == '\x7d'
    if next = ',' then entries depth fuel table else return table

end

/-! ## Documents -/

/-- A document being read: its root and the way to the table that entries go to. -/
structure State where
  root : Table
  current : List String

def State.addEntry (path : List String) (last : String) (value : Toml) (state : State) :
    Option State := do
  let root ← state.root.passHeader (Table.addEntry path last value) state.current
  return { state with root }

def entry (state : State) : Scan State := do
  let (path, last) ← key
  Scan.char '='
  blanks
  let value ← value 0 (2 * (← Scan.ahead).length + 2)
  endOfLine
  state.addEntry path last value

def header (state : State) : Scan State := do
  let double := ['[', '['].isPrefixOf (← Scan.ahead)
  Scan.literal (if double then ['[', '['] else ['['])
  let (path, last) ← key
  Scan.literal (if double then [']', ']'] else [']'])
  endOfLine
  let root ← if double then state.root.openElement path last else state.root.openTable path last
  return ⟨root, path ++ [last]⟩

def lines (fuel : Nat) (state : State) : Scan State := do
  match fuel with
  | 0 => failure
  | fuel + 1 =>
    blanks
    match ← Scan.peek? with
    | none => return state
    | some c =>
      if c = '#' ∨ c = '\n' ∨ c = '\r' then do
        endOfLine
        lines fuel state
      else if c = '[' then lines fuel (← header state)
      else lines fuel (← entry state)

/-- A byte order mark may stand in front. -/
def document : Scan Entries := do
  discard (Scan.option (Scan.char '\uFEFF'))
  let state ← lines ((← Scan.ahead).length + 1) ⟨Table.empty .header, []⟩
  return state.root.entries

end Parser

/-- The entries of a document. -/
def parse? (text : String) : Option Entries :=
  Parser.document.whole? text

end CoinWire.Toml
