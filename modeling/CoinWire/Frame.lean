import CoinWire.Message

/-!
# Frames

A frame is the magic of the network, a command padded with zeros, the length of the payload, its
checksum where the serializer is set to carry one, and the payload. Before a frame is read,
everything up to the next magic is skipped. A frame is written whole or not at all.
-/

namespace CoinWire

abbrev Checksum := Octets 4

/-- The first four bytes of the double SHA-256. -/
def checksum (payload : Bytes) : Checksum where
  toBytes := (Hash.double payload).toBytes.take 4
  length_toBytes := by simp [(Hash.double payload).length_toBytes]

/-- What stands between the magic and the payload. -/
structure FrameHeader where
  /-- The name of the command, padded with zeros. -/
  command : Octets 12
  length : UInt32
  checksum : Option Checksum
deriving DecidableEq

namespace FrameHeader

/-- A name in twelve bytes, if it is ASCII and fits. -/
def padded? (name : String) : Option (Octets 12) :=
  let bytes := Text.Utf8.encode name
  if h : bytes.length ≤ 12 ∧ bytes.all (· < 0x80) then
    some ⟨bytes ++ List.replicate (12 - bytes.length) 0, by simp; omega⟩
  else none

def ofPayload (name : String) (payload : Bytes) (withChecksum : Bool) :
    Except CodecError FrameHeader :=
  match padded? name with
  | none => .error (.violation (.invalidCommandName name))
  | some command =>
    if payload.length < UInt32.size then
      .ok ⟨command, UInt32.ofNat payload.length,
        if withChecksum then some (CoinWire.checksum payload) else none⟩
    else .error (.violation (.payloadTooLong payload.length))

/-- Reads a header. A length past the limit is refused before the checksum is read. -/
def read (limit : UInt32) (withChecksum : Bool) : Read FrameHeader := do
  let command ← Read.take 12
  let length ← Read.uint32
  if limit < length then throw (.violation (.messageTooLarge length.toNat limit))
  let checksum ← if withChecksum then some <$> Read.take 4 else pure none
  return ⟨command, length, checksum⟩

def wire (header : FrameHeader) : Bytes :=
  header.command.toBytes ++ Bytes.ofUInt32 header.length ++
    (header.checksum.map Octets.toBytes).getD []

def encodedLength (header : FrameHeader) : Nat :=
  if header.checksum.isSome then 20 else 16

/-- The command up to the first zero. -/
def commandName (header : FrameHeader) : Except CodecError String :=
  match Text.Utf8.decode (header.command.toBytes.takeWhile (· != 0)) with
  | .ok name => .ok name
  | .error fault => .error (.violation (.invalidCommand fault))

/-- The payload is the one that the checksum was made of. Without checksum all are. -/
def verifies (header : FrameHeader) (payload : Bytes) : Bool :=
  header.checksum.all (· == CoinWire.checksum payload)

end FrameHeader

/-- Reads and writes the frames of one network. -/
structure Framer where
  params : NetworkParams
  parse : ParseConfig
  /-- Frames carry a checksum. -/
  checksum : Bool
  /-- Parsers by command; the first of a command counts. -/
  parsers : List (String × PayloadParser)

namespace Framer

/-- Everything is parsed at once, and there is no checksum. -/
def new (params : NetworkParams) : Framer :=
  ⟨params, ParseConfig.eager, false, PayloadParser.defaults⟩

def parser? (framer : Framer) (command : String) : Option PayloadParser :=
  framer.parsers.lookup command

/-- Sets the parser of a command. -/
def register (command : String) (parser : PayloadParser) (framer : Framer) : Framer :=
  { framer with parsers := (command, parser) :: framer.parsers }

/-- Number of bytes in front of a payload. -/
def overhead (framer : Framer) : Nat :=
  if framer.checksum then 24 else 20

/-! ## Reading -/

/-- As `findMagic?`, with `index` bytes already passed. -/
def findFrom? (magic : Magic) (index : Nat) : Bytes → Option Nat
  | [] => none
  | byte :: rest =>
    if magic.toBytes.isPrefixOf (byte :: rest) then some index
    else findFrom? magic (index + 1) rest

/-- Where the first complete magic starts. -/
def findMagic? (framer : Framer) (bytes : Bytes) : Option Nat :=
  findFrom? framer.params.magic 0 bytes

/-- Moves past the next magic, or to the end if there is none. -/
def seek (framer : Framer) : Read Unit := do
  let reader ← get
  match framer.findMagic? reader.ahead with
  | some index => Read.skip (index + 4)
  | none => do
    Read.skip reader.remaining
    throw .magicNotFound

def readHeader (framer : Framer) : Read FrameHeader :=
  FrameHeader.read framer.params.maxMessageSize framer.checksum

/-- The message of a payload whose header was read. -/
def decodePayload (framer : Framer) (header : FrameHeader) (payload : Bytes) :
    Except CodecError Message := do
  let command ← header.commandName
  if header.verifies payload then
    match framer.parser? command with
    | some parser => parser payload framer.parse
    | none => return .unknown command payload
  else throw (.violation (.checksumMismatch command))

/-- Reads the next frame. -/
def read (framer : Framer) : Read Message := do
  framer.seek
  let header ← framer.readHeader
  let payload ← Read.bytes header.length.toNat
  MonadExcept.ofExcept (framer.decodePayload header payload)

/-! ## Writing -/

/-- Appends the frame of a payload to the output. -/
def writeRaw (framer : Framer) (command : String) (payload : Bytes) : Access Bytes Unit := do
  if framer.params.maxMessageSize.toNat < payload.length then
    throw (.violation (.messageTooLarge payload.length framer.params.maxMessageSize))
  let header ← MonadExcept.ofExcept (FrameHeader.ofPayload command payload framer.checksum)
  modify (· ++ framer.params.magic.toBytes ++ header.wire ++ payload)

/-- A message and the output it is written to. -/
structure Outgoing where
  message : Message
  out : Bytes

/-- Appends the frame of the message to the output. -/
def write (framer : Framer) : Access Outgoing Unit := do
  let payload ← Access.focus Outgoing.message
    (fun message outgoing ↦ { outgoing with message }) Message.payload
  let command := (← get).message.command
  Access.focus Outgoing.out (fun out outgoing ↦ { outgoing with out })
    (framer.writeRaw command payload)

end Framer

end CoinWire
