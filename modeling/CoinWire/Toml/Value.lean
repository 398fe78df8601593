import CoinWire.Bytes

/-!
# TOML documents

A document is a table. Tables come about in four ways, and the way decides what may be added to
one later. Numbers and times are checked when they are read; no setting uses their values.
-/

namespace CoinWire

/-- How a table came about. -/
inductive Toml.Origin where
  /-- Written between braces; nothing can be added. -/
  | braces
  /-- Named by a header. -/
  | header
  /-- Passed by a header on its way to another table. -/
  | passed
  /-- Passed by the dotted key of an entry. -/
  | dotted
deriving DecidableEq

inductive Toml where
  | string (text : String)
  | bool (value : Bool)
  /-- A number or a time. -/
  | measure
  | array (elements : List Toml)
  | table (origin : Toml.Origin) (entries : List (String × Toml))
  /-- Tables of one name, the last of which is open. -/
  | tables (elements : List (List (String × Toml)))

namespace Toml

abbrev Entries := List (String × Toml)

/-- A table that is being built. -/
structure Table where
  origin : Origin
  entries : Entries

namespace Table

def empty (origin : Origin) : Table :=
  ⟨origin, []⟩

/-- Sets an entry, in place of the one of the same key. -/
def put (key : String) (value : Toml) (table : Table) : Table :=
  { table with entries := table.entries.filter (·.1 != key) ++ [(key, value)] }

/-- Applies `change` to the table at the end of a path. A table that is missing on the way is
made with the origin `missing`; `mayPass` tells which tables may be passed. -/
def descend (missing : Origin) (mayPass : Origin → Bool) (change : Table → Option Table) :
    List String → Table → Option Table
  | [], here => change here
  | key :: path, here =>
    match here.entries.lookup key with
    | none => do
      let inner ← descend missing mayPass change path (empty missing)
      return here.put key (.table inner.origin inner.entries)
    | some (.table origin entries) =>
      if mayPass origin then do
        let inner ← descend missing mayPass change path ⟨origin, entries⟩
        return here.put key (.table inner.origin inner.entries)
      else none
    | some (.tables elements) => do
      let last ← elements.getLast?
      let inner ← descend missing mayPass change path ⟨.header, last⟩
      return here.put key (.tables (elements.dropLast ++ [inner.entries]))
    | some _ => none

/-- Adds an entry under a dotted key. Only tables that dotted keys made can be added to in this
way, and no key is set twice. -/
def addEntry (path : List String) (key : String) (value : Toml) (table : Table) : Option Table :=
  descend .dotted (fun origin ↦ origin == .passed || origin == .dotted)
    (fun inner ↦
      if (path.isEmpty || inner.origin == .dotted) && (inner.entries.lookup key).isNone then
        some (inner.put key value)
      else none)
    path table

/-- Headers pass every table that is not written between braces. -/
def passHeader (change : Table → Option Table) (path : List String) (table : Table) :
    Option Table :=
  descend .passed (· != .braces) change path table

/-- Opens the table of a header. A table can be named once, and not after its entries were given
by dotted keys. -/
def openTable (path : List String) (key : String) (table : Table) : Option Table :=
  passHeader
    (fun parent ↦
      match parent.entries.lookup key with
      | none => some (parent.put key (.table .header []))
      | some (.table .passed entries) => some (parent.put key (.table .header entries))
      | some _ => none)
    path table

/-- Opens a further table of the name in a double header. -/
def openElement (path : List String) (key : String) (table : Table) : Option Table :=
  passHeader
    (fun parent ↦
      match parent.entries.lookup key with
      | none => some (parent.put key (.tables [[]]))
      | some (.tables elements) => some (parent.put key (.tables (elements ++ [[]])))
      | some _ => none)
    path table

end Table

end Toml

end CoinWire
