import DexGraph.Bytes.Stream
import DexGraph.Graph.Basic

/-!
# Bodies

A body is a header with the sizes of its parts, the units of its instructions and, if it catches
exceptions, its try ranges and a list of handlers. A try range names its handler by the offset of
the handler in that list. The handlers of a list follow each other behind their number, but a
body is written so that every handler comes to lie at the offset it has, whatever gaps that
leaves.
-/

namespace DexGraph

/-! ## Handlers -/

namespace CatchHandler

/-- The bytes of a handler. -/
def encode (h : CatchHandler) : Bytes :=
  h.clauses.foldl
    (fun bytes clause =>
      let type := (clause.type.map fun r => Leb128.encodeUnsigned r.slot).getD #[]
      bytes ++ type ++ Leb128.encodeUnsigned clause.address)
    (Leb128.encodeSigned h.statedSize)

/-- Reads a clause for the exceptions of a type. -/
def decodeClause (g : Graph) : Decoder CatchClause := do
  let index ← Decoder.unsignedLeb
  let address ← Decoder.unsignedLeb
  return ⟨some (← Decoder.ofExcept (g.resolve .typeId index)), address⟩

/-- Reads the handler whose offset in the list is given. -/
def decode (g : Graph) (listOffset : UInt16) : Decoder CatchHandler := do
  let size := (← Decoder.signedLeb).toInt
  let clauses ← gather size.natAbs (decodeClause g)
  if size ≤ 0 then
    return ⟨true, listOffset, clauses.push ⟨none, ← Decoder.unsignedLeb⟩⟩
  else
    return ⟨false, listOffset, clauses⟩

/-- Passes over a handler. -/
def skip : Decoder Unit := do
  let size := (← Decoder.signedLeb).toInt
  times (2 * size.natAbs) (discard Decoder.unsignedLeb)
  if size ≤ 0 then discard Decoder.unsignedLeb

/-- The position among handlers of the one with the given offset. -/
def positionOf? (handlers : Array CatchHandler) (listOffset : UInt16) : Option Nat :=
  handlers.findIdx? fun h => h.listOffset == listOffset

end CatchHandler

/-! ## Try ranges -/

/-- A try range as it is stored, with the offset of its handler in the list. -/
structure StoredTry where
  start : UInt32
  count : UInt16
  handlerOffset : UInt16
  deriving DecidableEq, Repr

namespace StoredTry

/-- Reads a try range. -/
def decode : Decoder StoredTry := do
  return ⟨← Decoder.word, ← Decoder.halfWord, ← Decoder.halfWord⟩

/-- The bytes of a try range. -/
def encode (t : StoredTry) : Bytes :=
  .ofWord t.start ++ .ofHalfWord t.count ++ .ofHalfWord t.handlerOffset

end StoredTry

/-- The try ranges and the handlers of a body. -/
structure Catches where
  tries : Array TryRange
  handlers : Array CatchHandler
  deriving DecidableEq, Repr

namespace Catches

/-- Neither try ranges nor handlers. -/
def empty : Catches := ⟨#[], #[]⟩

/-- Adds a try range and, unless it has been read before, its handler. The handler list starts at
`listStart`. -/
def addTry (g : Graph) (listStart : Nat) (c : Catches) (t : StoredTry) : Decoder Catches := do
  match CatchHandler.positionOf? c.handlers t.handlerOffset with
  | some i => return { c with tries := c.tries.push ⟨t.start, t.count, i⟩ }
  | none =>
    let h ← Decoder.elsewhere (listStart + t.handlerOffset.toNat)
      (CatchHandler.decode g t.handlerOffset)
    return ⟨c.tries.push ⟨t.start, t.count, c.handlers.size⟩, c.handlers.push h⟩

/-- Adds the next handlers of the list, except those that have been read before. -/
def addListed (g : Graph) (listStart : Nat) : (count : Nat) → Catches → Decoder Catches
  | 0, c => return c
  | count + 1, c => do
    let listOffset ← Decoder.ofExcept (toHalfWord ((← Decoder.position) - listStart))
    if (CatchHandler.positionOf? c.handlers listOffset).isSome then
      CatchHandler.skip
      addListed g listStart count c
    else
      let h ← CatchHandler.decode g listOffset
      addListed g listStart count { c with handlers := c.handlers.push h }

/-- Reads try ranges and the list of handlers behind them. Handlers come in the order in which
the try ranges name them; those that no try range names come last. -/
def decode (g : Graph) (tryCount : Nat) : Decoder Catches := do
  let stored ← gather tryCount StoredTry.decode
  let listStart ← Decoder.position
  let c ← stored.foldlM (addTry g listStart) empty
  let listed ← Decoder.unsignedLeb
  addListed g listStart listed.toNat c

end Catches

/-! ## Bodies -/

/-- The header of a body. -/
structure CodeHeader where
  registers : UInt16
  ins : UInt16
  outs : UInt16
  tryCount : UInt16
  debugInfoOffset : UInt32
  unitCount : UInt32
  deriving DecidableEq, Repr

namespace CodeHeader

/-- Reads the header of a body. -/
def decode : Decoder CodeHeader := do
  return ⟨← Decoder.halfWord, ← Decoder.halfWord, ← Decoder.halfWord, ← Decoder.halfWord,
    ← Decoder.word, ← Decoder.word⟩

/-- The bytes of a header. -/
def encode (h : CodeHeader) : Bytes :=
  .ofHalfWord h.registers ++ .ofHalfWord h.ins ++ .ofHalfWord h.outs ++
    .ofHalfWord h.tryCount ++ .ofWord h.debugInfoOffset ++ .ofWord h.unitCount

end CodeHeader

namespace CodeItem

/-- Reads what follows the header of a body. Try ranges start at a whole word. -/
def decodeAfter (g : Graph) (h : CodeHeader) (debugInfo : Option (Ref .debugInfo)) :
    Decoder CodeItem := do
  let units ← Decoder.halfWords h.unitCount.toNat
  let catches ←
    if h.tryCount == 0 then pure .empty
    else do
      if h.unitCount % 2 == 1 then Decoder.advance 2
      Catches.decode g h.tryCount.toNat
  return ⟨h.registers, h.ins, h.outs, debugInfo, units, catches.tries, catches.handlers⟩

/-- The bytes before the try ranges. -/
def encodeUnits (code : CodeItem) (debugInfoOffset : UInt32) : Except Error Bytes := do
  let tryCount ← toHalfWord code.tries.size
  let unitCount ← toWord code.instructions.size
  let header : CodeHeader :=
    ⟨code.registers, code.ins, code.outs, tryCount, debugInfoOffset, unitCount⟩
  return code.instructions.foldl (fun bytes u => bytes ++ .ofHalfWord u) header.encode

/-- The bytes of the try ranges behind those that are given. -/
def encodeTries (code : CodeItem) (bytes : Bytes) : Except Error Bytes :=
  code.tries.foldlM
    (fun bytes t =>
      match code.handlerOf? t with
      | some h => return bytes ++ StoredTry.encode ⟨t.start, t.count, h.listOffset⟩
      | none => .error (.malformed (.missingHandler t.start t.handler)))
    bytes

/-- Puts a handler at its offset in the list that starts at `listStart`, where it may not overlap
the number of handlers. The result is the stream and the furthest end of a handler so far. -/
def putHandler (listStart countSize : Nat) (out : Stream × Nat) (h : CatchHandler) :
    Except Error (Stream × Nat) :=
  if h.listOffset.toNat < countSize then
    .error (.malformed (.handlerOverlapsCount h.listOffset))
  else
    let stream := (out.1.seek (listStart + h.listOffset.toNat)).write h.encode
    .ok (stream, max out.2 stream.position)

/-- The body as an item, with the given offset of its debug info. -/
def encode (code : CodeItem) (debugInfoOffset : UInt32) : Except Error Stream := do
  let bytes ← code.encodeUnits debugInfoOffset
  if code.tries.isEmpty then return Stream.ofBytes bytes
  let bytes := if code.instructions.size % 2 == 1 then bytes ++ .ofHalfWord 0 else bytes
  let bytes ← code.encodeTries bytes
  let count := Leb128.encodeUnsigned (← toWord code.handlers.size)
  let stream := Stream.ofBytes (bytes ++ count)
  let (stream, stop) ←
    code.handlers.foldlM (putHandler bytes.size count.size) (stream, stream.position)
  return stream.seek stop

end CodeItem

end DexGraph
