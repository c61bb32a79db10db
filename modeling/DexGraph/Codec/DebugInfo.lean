import DexGraph.Bytes.Leb128
import DexGraph.Graph.Entities

/-!
# Debug info

A debug-info stream is a line number, the names of the parameters, and a program of one-byte
operations with LEB128 operands. It ends with the operation zero and says in no other way how
long it is, so it is walked through once and then kept as it stands.
-/

namespace DexGraph.DebugInfo

/-- The operands of an operation. -/
def skipOperands (operation : UInt8) : Decoder Unit := do
  match operation with
  | 0x01 | 0x05 | 0x06 => discard Decoder.unsignedLeb
  | 0x02 => discard Decoder.signedLeb
  | 0x03 => times 3 (discard Decoder.unsignedLeb)
  | 0x04 => times 4 (discard Decoder.unsignedLeb)
  | 0x09 => discard Decoder.unsignedLeb
  | _ => pure ()

/-- The operations of a program up to its end; `count` bounds their number. -/
def skipOperations : (count : Nat) → Decoder Unit
  | 0 => Decoder.fail .outOfBounds
  | count + 1 => do
    let operation ← Decoder.byte
    if operation == 0 then return
    skipOperands operation
    skipOperations count

/-- Passes over a stream. Each operation takes a byte at least, so there are no more of them than
bytes left. -/
def skip : Decoder Unit := do
  let _ ← Decoder.unsignedLeb
  let parameters ← Decoder.unsignedLeb
  times parameters.toNat (discard Decoder.unsignedLeb)
  skipOperations (← Decoder.remaining)

/-- Reads a stream. -/
def decode : Decoder DebugInfo := fun data start => do
  let (_, stop) ← skip data start
  return (⟨data.extract start stop⟩, stop)

end DexGraph.DebugInfo
