import CoinWire.Text.Hex

/-!
# Errors

A failure is a cause. The wording is a function of the cause and of nothing else.
-/

namespace CoinWire

/-- The rules a well-formed byte string or name can break. -/
inductive Violation where
  | overlongVarInt (value : UInt64) (width : Nat)
  | excessiveCount (what : String) (count : UInt64) (left : Nat)
  | tooManyEntries (what : String) (count limit : Nat)
  | headerWithTransactions (count : Nat)
  | unknownInventoryKind (value : UInt32)
  | invalidHashHex (fault : Text.Hex.Fault)
  | hashLength (length : Nat)
  | invalidCommandName (name : String)
  | payloadTooLong (length : Nat)
  | messageTooLarge (size : Nat) (limit : UInt32)
  | invalidCommand (fault : Text.Utf8.Fault)
  | checksumMismatch (command : String)
  | unparsedWithoutBytes
  | fieldsMissing
deriving DecidableEq

def Violation.message : Violation → String
  | .overlongVarInt value width => s!"non-canonical varint: {value} encoded in {width} bytes"
  | .excessiveCount what count left => s!"implausible {what} count {count} with {left} bytes left"
  | .tooManyEntries what count limit => s!"{count} {what} entries, at most {limit} allowed"
  | .headerWithTransactions count =>
    s!"block header in headers message carries {count} transactions"
  | .unknownInventoryKind value => s!"unknown inventory type {value}"
  | .invalidHashHex fault => s!"invalid hash hex: {fault.message}"
  | .hashLength length => s!"hash must be 32 bytes, got {length}"
  | .invalidCommandName name => s!"invalid command name {Text.quoted name}"
  | .payloadTooLong length => s!"payload of {length} bytes"
  | .messageTooLarge size limit =>
    s!"message size too large: {size} bytes (max: {limit} bytes)"
  | .invalidCommand fault => s!"invalid command: {fault.message}"
  | .checksumMismatch command => s!"checksum mismatch on {command}"
  | .unparsedWithoutBytes => "unparsed node holds no bytes"
  | .fieldsMissing => "node fields missing after parse"

inductive CodecError where
  /-- A read needed more bytes than were left. -/
  | underrun (needed remaining : Nat)
  | violation (cause : Violation)
  /-- Only messages of a known command have an encoding. -/
  | unknownCommand (command : String)
  /-- The stream ended before the network magic was found. -/
  | magicNotFound
  | indexOutOfBounds (index length : Nat)
  /-- A header-only block has no transaction list. -/
  | headerOnly
deriving DecidableEq

namespace CodecError

def message : CodecError → String
  | .underrun needed remaining =>
    s!"Buffer underrun: needed {needed} bytes, {remaining} remaining"
  | .violation cause => s!"Protocol violation: {cause.message}"
  | .unknownCommand command =>
    s!"Unsupported: no encoding for unknown command {Text.quoted command}"
  | .magicNotFound => "Stream exhausted before network magic was found"
  | .indexOutOfBounds index length => s!"Index {index} out of bounds for {length} elements"
  | .headerOnly => "Block was decoded as a header only and has no transaction list"

/-- The error only says that more input is needed. -/
def isUnderrun : CodecError → Bool
  | .underrun .. => true
  | .magicNotFound => true
  | _ => false

end CodecError

end CoinWire
