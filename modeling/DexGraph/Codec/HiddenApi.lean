import DexGraph.Bytes.Stream
import DexGraph.Graph.HiddenApi

/-!
# The hidden-API section

The section starts with its total size and, for every class, the offset of the flags of its
members from the start of the section; zero stands for none. The flags are LEB128 numbers. A
section is written with at least the size it had, zeros filling what the flags do not need.
-/

namespace DexGraph.HiddenApi

/-- Reads the flags of the class with a given index, which has so many members, from the section
at `start`. -/
def decodeClass (start : Nat) (members classIndex : Nat) :
    Decoder (Option (Array UInt32)) := do
  let offset ← Decoder.elsewhere (start + 4 + 4 * classIndex) Decoder.word
  if offset == 0 then return none
  Decoder.elsewhere (start + offset.toNat) do
    return some (← gather members Decoder.unsignedLeb)

/-- Reads the section at the current position: its total size and the flags of the classes, whose
numbers of members are given. -/
def decode (members : Array Nat) : Decoder (UInt32 × HiddenApi) := do
  let start ← Decoder.position
  let total ← Decoder.word
  let flags ← members.zipIdx.mapM fun (count, i) => decodeClass start count i
  return (total, ⟨flags⟩)

/-- The offsets of the flags of the classes, the first of them at `position`. -/
def encodeOffsets : (position : Nat) → List (Option (Array UInt32)) → Bytes → Bytes
  | _, [], bytes => bytes
  | position, none :: rest, bytes => encodeOffsets position rest (bytes ++ .ofWord 0)
  | position, some flags :: rest, bytes =>
    encodeOffsets (position + streamSize flags) rest (bytes ++ .ofWord position.toUInt32)

/-- The flags of all classes one behind the other, behind the bytes that are given. -/
def encodeFlags (h : HiddenApi) (bytes : Bytes) : Bytes :=
  h.flags.foldl
    (fun bytes flags =>
      (flags.getD #[]).foldl (fun bytes flag => bytes ++ Leb128.encodeUnsigned flag) bytes)
    bytes

/-- The section as an item that takes at least `recordedSize` bytes. -/
def encode (h : HiddenApi) (recordedSize : UInt32) : Except Error Stream := do
  let needed ← toWord h.byteSize
  let total := max needed recordedSize
  let bytes := encodeOffsets (4 + 4 * h.flags.size) h.flags.toList (.ofWord total)
  return ((Stream.ofBytes (h.encodeFlags bytes)).seek 0).skip total.toNat

end DexGraph.HiddenApi
