import CoinWire.Frame

/-!
# Frames from a stream

Bytes arrive in chunks of any size and are kept in a buffer. Bytes that cannot belong to a frame
are dropped; a frame is taken out of the buffer once all of it has arrived.
-/

namespace CoinWire.Framer

/-- Takes the next message out of the buffer, or nothing if more bytes are needed. -/
def decode (framer : Framer) : Access Bytes (Option Message) := do
  let buffer ← get
  match framer.findMagic? buffer with
  | none => do
    -- The first bytes of a magic may stand at the very end.
    set (buffer.drop (buffer.length - 3))
    return none
  | some index =>
    let buffer := buffer.drop index
    set buffer
    if Bytes.holds buffer framer.overhead then
      let ahead := (buffer.take framer.overhead).drop 4
      let header ← MonadExcept.ofExcept (framer.readHeader.answer (Reader.ofBytes ahead))
      let size := framer.overhead + header.length.toNat
      if Bytes.holds buffer size then
        set (buffer.drop size)
        let payload := (buffer.take size).drop framer.overhead
        return some (← MonadExcept.ofExcept (framer.decodePayload header payload))
      else return none
    else return none

/-- Appends the frame of a message to the buffer. -/
def encode (framer : Framer) (message : Message) : Access Bytes Unit := do
  match framer.write ⟨message, []⟩ with
  | .ok _ outgoing => modify (· ++ outgoing.out)
  | .error e _ => throw e

end CoinWire.Framer
