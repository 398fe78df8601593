import CoinWire.Hash
import CoinWire.Reader

/-!
# Cached nodes

A node is a value on the wire together with what is known of it: the bytes it came from, its
fields once they are parsed, and its hash once it was asked for. Looking at the fields parses
them and drops nothing. Editing drops the bytes and the hash, of this node alone: a tree is
edited from its root, so every node on the way to an edit is edited too, while the nodes beside
the way keep their bytes.
-/

namespace CoinWire

/-- How a payload becomes nodes. -/
structure ParseConfig where
  /-- Leave the fields unparsed until they are looked at. -/
  lazy : Bool
  /-- Keep the bytes, so that what was not edited is written by copy. -/
  retain : Bool
deriving DecidableEq, Inhabited

namespace ParseConfig

def eager : ParseConfig := ⟨false, false⟩

def eagerRetain : ParseConfig := ⟨false, true⟩

def deferred : ParseConfig := ⟨true, false⟩

def deferredRetain : ParseConfig := ⟨true, true⟩

def all : List ParseConfig := [eager, eagerRetain, deferred, deferredRetain]

end ParseConfig

/-- The outcome of a comparison that may have parsed what it compared. -/
structure Compared (α : Type) where
  equal : Bool
  left : α
  right : α

namespace Compared

variable {α : Type}

/-- Compares plain values, in which there is nothing to parse. -/
def plain [DecidableEq α] (left right : α) : Compared α :=
  ⟨decide (left = right), left, right⟩

/-- Compares lists of one length, up to the first difference. -/
def pairwise (compare : α → α → Compared α) : List α → List α → Compared (List α)
  | left :: lefts, right :: rights =>
    let first := compare left right
    if first.equal then
      let others := pairwise compare lefts rights
      ⟨others.equal, first.left :: others.left, first.right :: others.right⟩
    else ⟨false, first.left :: lefts, first.right :: rights⟩
  | lefts, rights => ⟨true, lefts, rights⟩

/-- Compares lists. Lists of different lengths are not looked into. -/
def lists (compare : α → α → Compared α) (lefts rights : List α) : Compared (List α) :=
  if lefts.length = rights.length then pairwise compare lefts rights
  else ⟨false, lefts, rights⟩

end Compared

/-- How the fields of a kind of node lie on the wire. -/
class Layout (F : Type) where
  /-- Moves over one value and checks its structure. -/
  scan : Read Unit
  /-- Reads one value; its children are read under the same configuration. -/
  parse : ParseConfig → Read F
  encodedLength : F → Nat
  /-- The encoding. Children whose bytes are not held are parsed. -/
  encode : Access F Bytes
  /-- Hands each child its part of an encoding of the whole. -/
  adopt : Bytes → F → F
  compare : F → F → Compared F

structure Node (F : Type) where
  /-- The bytes held, if any. They are the only copy as long as the fields are not parsed. -/
  raw : Option Bytes
  /-- The bytes held are known to be the encoding. -/
  cached : Bool
  config : ParseConfig
  /-- The fields, once they are parsed. -/
  parsed : Option F
  /-- The hash, once it was asked for. -/
  digest : Option Hash

namespace Node

variable {F α : Type}

/-! ## Marks -/

def isParsed (node : Node F) : Bool :=
  node.parsed.isSome

def isCached (node : Node F) : Bool :=
  node.cached

/-- Bytes held that are the encoding. -/
def current? (node : Node F) : Option Bytes :=
  if node.cached || !node.isParsed then node.raw else none

/-- Bytes held that may be copied to the output. -/
def cached? (node : Node F) : Option Bytes :=
  if node.cached then node.raw else none

/-! ## Construction -/

/-- A node that was built and not read. -/
def ofFields (fields : F) (config : ParseConfig) : Node F :=
  ⟨none, false, config, some fields, none⟩

variable [Layout F]

/-- Reads a node at the cursor. An unparsed node keeps its bytes whatever the configuration. -/
def read (config : ParseConfig) : Read (Node F) := do
  let start := (← get).position
  if config.lazy then
    Layout.scan F
    let raw := (← get).sliceFrom start
    return ⟨some raw, config.retain, config, none, none⟩
  else
    let fields ← Layout.parse config
    let raw := (← get).sliceFrom start
    return ⟨if config.retain then some raw else none, config.retain, config, some fields, none⟩

theorem read_lazy {config : ParseConfig} (h : config.lazy = true) (reader : Reader) :
    (Node.read config : Read (Node F)) reader =
      match Layout.scan F reader with
      | .ok _ after =>
        .ok ⟨some (after.sliceFrom reader.position), config.retain, config, none, none⟩ after
      | .error e after => .error e after := by
  unfold Node.read
  rw [h]
  change (Layout.scan F >>= _ : Read (Node F)) reader = _
  rw [Access.bind_apply]
  cases Layout.scan F reader <;> rfl

theorem read_eager {config : ParseConfig} (h : config.lazy = false) (reader : Reader) :
    (Node.read config : Read (Node F)) reader =
      match (Layout.parse config : Read F) reader with
      | .ok fields after =>
        .ok ⟨if config.retain then some (after.sliceFrom reader.position) else none,
          config.retain, config, some fields, none⟩ after
      | .error e after => .error e after := by
  unfold Node.read
  rw [h]
  change (Layout.parse config >>= _ : Read (Node F)) reader = _
  rw [Access.bind_apply]
  cases (Layout.parse config : Read F) reader <;> rfl

/-- Reads a node at the front of `bytes`. What follows it is ignored. -/
def ofBytes (bytes : Bytes) (config : ParseConfig) : Except CodecError (Node F) :=
  (read config).answer (Reader.ofBytes bytes)

/-! ## Looking -/

/-- The fields, parsed if need be. -/
def fields : Access (Node F) F := fun node ↦
  match node.parsed with
  | some fields => .ok fields node
  | none =>
    match node.raw with
    | none => .error (.violation .unparsedWithoutBytes) node
    | some raw =>
      match (Layout.parse node.config).answer (Reader.ofBytes raw) with
      | .ok fields => .ok fields { node with parsed := some fields }
      | .error e => .error e node

/-- Puts fields back that were looked at. -/
def putFields (fields : F) (node : Node F) : Node F :=
  { node with parsed := some fields }

/-- All a look at the fields leaves behind are the fields. -/
theorem eq_putFields_of_fields {node node' : Node F} {found : F}
    (h : fields node = .ok found node') : node' = node.putFields found := by
  obtain ⟨raw, cached, config, parsed, digest⟩ := node
  unfold fields at h
  cases parsed with
  | some known =>
    injection h with hfound hnode
    rw [← hnode, ← hfound, putFields]
  | none =>
    cases raw with
    | none => contradiction
    | some raw =>
      dsimp only at h
      split at h
      · injection h with hfound hnode
        rw [← hnode, ← hfound, putFields]
      · contradiction

/-- Looks at the fields. The look may parse children; bytes and hash stay. -/
def look (access : Access F α) : Access (Node F) α := do
  let fields ← Node.fields
  match access fields with
  | .ok a fields' => modifyGet fun node ↦ (a, node.putFields fields')
  | .error e fields' => do
    modify (putFields fields')
    throw e

theorem look_apply (access : Access F α) (node : Node F) :
    look access node =
      match fields node with
      | .ok fields node' =>
        match access fields with
        | .ok a fields' => .ok a (node'.putFields fields')
        | .error e fields' => .error e (node'.putFields fields')
      | .error e node' => .error e node' := by
  unfold look
  rw [Access.bind_apply]
  cases fields node with
  | error e node' => rfl
  | ok fields node' =>
    dsimp only
    cases access fields <;> rfl

/-- Size of the encoding. Nothing is parsed for it. -/
def length (node : Node F) : Nat :=
  match node.current?, node.parsed with
  | some raw, _ => raw.length
  | none, some fields => Layout.encodedLength fields
  | none, none => 0

/-- Size of the encodings of several nodes. -/
def totalLength (nodes : List (Node F)) : Nat :=
  nodes.foldr (fun node total ↦ node.length + total) 0

@[simp]
theorem totalLength_nil : totalLength ([] : List (Node F)) = 0 := rfl

@[simp]
theorem totalLength_cons (node : Node F) (nodes : List (Node F)) :
    totalLength (node :: nodes) = node.length + totalLength nodes := rfl

/-- The encoding, by copy where it is cached. -/
def bytes : Access (Node F) Bytes := do
  match (← get).cached? with
  | some raw => return raw
  | none => look Layout.encode

theorem bytes_apply (node : Node F) :
    bytes node =
      match node.cached? with
      | some raw => .ok raw node
      | none => look Layout.encode node := by
  change (match node.cached? with
    | some raw => pure raw
    | none => look Layout.encode : Access (Node F) Bytes) node = _
  cases node.cached? <;> rfl

/-- Double SHA-256 of the encoding, kept until the next edit. -/
def hash : Access (Node F) Hash := do
  let node ← get
  match node.digest with
  | some hash => return hash
  | none =>
    let encoding ← match node.current? with
      | some raw => pure raw
      | none => look Layout.encode
    let hash := Hash.double encoding
    modify fun node ↦ { node with digest := some hash }
    return hash

theorem hash_apply (node : Node F) :
    hash node =
      match node.digest with
      | some hash => .ok hash node
      | none =>
        match node.current? with
        | some raw => .ok (Hash.double raw) { node with digest := some (Hash.double raw) }
        | none =>
          match look Layout.encode node with
          | .ok raw node' => .ok (Hash.double raw) { node' with digest := some (Hash.double raw) }
          | .error e node' => .error e node' := by
  unfold hash
  rw [Access.bind_apply]
  change (match node.digest with | some hash => _ | none => _ : Access (Node F) Hash) node = _
  cases node.digest with
  | some hash => rfl
  | none =>
    cases node.current? with
    | some raw => rfl
    | none =>
      dsimp only
      rw [Access.bind_apply]
      cases look Layout.encode node <;> rfl

/-- Compares fields, which are parsed for it. Nodes that cannot be parsed equal nothing. -/
def compare (left right : Node F) : Compared (Node F) :=
  match fields left, fields right with
  | .ok a left', .ok b right' =>
    let compared := Layout.compare a b
    ⟨compared.equal, left'.putFields compared.left, right'.putFields compared.right⟩
  | .ok _ left', .error _ right' => ⟨false, left', right'⟩
  | .error _ left', .ok _ right' => ⟨false, left', right'⟩
  | .error _ left', .error _ right' => ⟨false, left', right'⟩

/-! ## Editing -/

/-- Forgets bytes and hash. Only a node with fields may go stale: the bytes of one without are
all there is of it. -/
def stale (node : Node F) : Node F :=
  let node := { node with digest := none }
  if !node.cached && node.raw.isNone then node else { node with raw := none, cached := false }

omit [Layout F] in
/-- A node that holds no bytes and is not cached has no more than its hash to forget. -/
theorem stale_eq (node : Node F) :
    node.stale = { node with raw := none, cached := false, digest := none } := by
  obtain ⟨raw, cached, config, parsed, digest⟩ := node
  cases raw <;> cases cached <;> rfl

/-- Edits the fields. Bytes and hash are dropped, even if the edit itself then fails. -/
def edit (access : Access F α) : Access (Node F) α := do
  discard Node.fields
  modify stale
  match (← get).parsed with
  | none => throw (.violation .fieldsMissing)
  | some fields =>
    match access fields with
    | .ok a fields' => do
      modify (putFields fields')
      return a
    | .error e fields' => do
      modify (putFields fields')
      throw e

theorem edit_apply (access : Access F α) (node : Node F) :
    edit access node =
      match fields node with
      | .ok fields node' =>
        match access fields with
        | .ok a fields' => .ok a (node'.stale.putFields fields')
        | .error e fields' => .error e (node'.stale.putFields fields')
      | .error e node' => .error e node' := by
  unfold edit
  rw [Access.bind_apply, Access.discard_apply]
  cases hfields : fields node with
  | error e node' => rfl
  | ok fields node' =>
    have hparsed : node'.stale.parsed = some fields := by
      rw [stale_eq, eq_putFields_of_fields hfields]
      rfl
    change (match node'.stale.parsed with
      | none => throw _
      | some fields => _ : Access (Node F) α) node'.stale = _
    rw [hparsed]
    dsimp only
    cases access fields <;> rfl

/-- Drops the bytes held, so that the next encoding is made from the fields. -/
def invalidate : Access (Node F) Unit :=
  edit (pure ())

/-- Takes `raw` for the cached encoding of the node and, by parts, of its children. -/
def adopt (raw : Bytes) (node : Node F) : Node F :=
  { node with raw := some raw, cached := true, parsed := node.parsed.map (Layout.adopt raw) }

/-- As `adopt`, for a node that is to keep its bytes and is not cached. -/
def adoptIfKept (raw : Bytes) (node : Node F) : Node F :=
  if node.config.retain && !node.isCached then node.adopt raw else node

/-- The encoding, which is kept where the configuration says so. -/
def serialize : Access (Node F) Bytes := do
  match (← get).cached? with
  | some raw => return raw
  | none =>
    let raw ← look Layout.encode
    modify fun node ↦ if node.config.retain then node.adopt raw else node
    return raw

theorem serialize_apply (node : Node F) :
    serialize node =
      match node.cached? with
      | some raw => .ok raw node
      | none =>
        match look Layout.encode node with
        | .ok raw node' => .ok raw (if node'.config.retain then node'.adopt raw else node')
        | .error e node' => .error e node' := by
  unfold serialize
  rw [Access.bind_apply]
  change (match node.cached? with | some raw => _ | none => _ : Access (Node F) Bytes) node = _
  cases node.cached? with
  | some raw => rfl
  | none =>
    dsimp only
    rw [Access.bind_apply]
    cases look Layout.encode node <;> rfl

/-- Hands each node its part of `raw`, in order, and answers what is left of it. -/
def adoptEach (raw : Bytes) : List (Node F) → List (Node F) × Bytes
  | [] => ([], raw)
  | node :: rest =>
    let (rest', left) := adoptEach (raw.drop node.length) rest
    (node.adopt (raw.take node.length) :: rest', left)

end Node

end CoinWire
