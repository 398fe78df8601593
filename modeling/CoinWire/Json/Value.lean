import CoinWire.Bytes

/-!
# JSON values

Numbers are told apart only as far as the records of this library ask: a number has an integer
value or it has none. A string whose escapes name half a surrogate pair is no text; it may stand
where it is not looked at.
-/

namespace CoinWire

inductive Json where
  | null
  | bool (value : Bool)
  | number (value : Option Int)
  | string (text : Option String)
  | array (elements : List Json)
  | object (members : List (Option String × Json))

namespace Json

def ofNat (value : Nat) : Json :=
  .number (some value)

def ofInt (value : Int) : Json :=
  .number (some value)

def ofString (text : String) : Json :=
  .string (some text)

/-- An object with its members in order. -/
def record (members : List (String × Json)) : Json :=
  .object (members.map fun member ↦ (some member.1, member.2))

end Json

end CoinWire
