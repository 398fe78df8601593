import CoinWire.Json.Records
import CoinWire.Toml.Parser

/-!
# Settings from TOML

Each setting is an entry of the document, and one that is missing takes its default. Entries of
other names are passed over.
-/

namespace CoinWire.Toml

/-- A table or an array without contents. -/
def isVoid : Toml → Bool
  | .array elements => elements.isEmpty
  | .table _ entries => entries.isEmpty
  | .tables elements => elements.isEmpty
  | _ => false

/-- A network is a name, or a table with that name and nothing in it. -/
def network? : Toml → Option Network
  | .string name => Network.names.lookup name
  | .table _ [(name, value)] => if value.isVoid then Network.names.lookup name else none
  | _ => none

def bool? : Toml → Option Bool
  | .bool value => some value
  | _ => none

/-- A table with both settings, or an array that starts with them. -/
def parseConfig? : Toml → Option ParseConfig
  | .table _ entries => do
    return ⟨← bool? (← entries.lookup "lazy"), ← bool? (← entries.lookup "retain")⟩
  | .array (lazy :: retain :: _) => do return ⟨← bool? lazy, ← bool? retain⟩
  | _ => none

/-- The entry called `name` as `read` sees it, or a default if there is none. -/
def setting {α : Type} (absent : α) (read : Toml → Option α) (name : String)
    (entries : Entries) : Option α :=
  match entries.lookup name with
  | none => some absent
  | some value => read value

def settings? (text : String) : Option Settings := do
  let entries ← parse? text
  let network ← setting Settings.defaults.network network? "network" entries
  let parse ← setting Settings.defaults.parse parseConfig? "parse" entries
  let checksum ← setting Settings.defaults.checksum bool? "checksum" entries
  return ⟨network, parse, checksum⟩

end CoinWire.Toml
