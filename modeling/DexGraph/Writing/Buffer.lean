import DexGraph.Bytes.Leb128
import DexGraph.Format.Row

/-!
# Growing buffers

A buffer holds an output in one block of memory. The block may be longer than the output: it starts
out with some capacity, and it grows by more than is needed when something is to be stored past its
end. Everything in it that has not been stored is zero. As in a stream, the length is the furthest
position that a store or a skip has reached, and moving the cursor alone does not change it.

A row is stored field by field. A field that does not fit would end this with the cursor where it
was; `Buffer.writeRow` makes room for the whole row beforehand.
-/

namespace DexGraph

/-- A block of memory with an output in it and a cursor. -/
structure Buffer where
  data : Bytes
  position : Nat
  length : Nat
  deriving DecidableEq, Repr

namespace Buffer

/-- How many bytes a block grows by, besides half of its size. -/
def headroom : Nat := 64 * 1024

/-- A buffer without output, in a block of the given size. -/
def withCapacity (capacity : Nat) : Buffer :=
  ⟨Array.replicate capacity 0, 0, 0⟩

/-- A block, made so long that it reaches a position. -/
def grown (data : Bytes) (stop : Nat) : Bytes :=
  if stop ≤ data.size then data
  else
    let size := max (data.size + data.size / 2 + headroom) stop
    data ++ Array.replicate (size - data.size) 0

/-- Makes the block so long that it reaches a position. -/
def reserve : Buffer → Nat → Buffer
  | ⟨data, position, length⟩, stop => ⟨grown data stop, position, length⟩

/-- Whether nothing has been written or skipped. -/
def isEmpty (b : Buffer) : Bool :=
  b.length == 0

/-- Moves the cursor. -/
def seek (b : Buffer) (position : Nat) : Buffer :=
  { b with position := position }

/-- Moves the cursor over `count` bytes, which keep their values. -/
def skip (b : Buffer) (count : Nat) : Buffer :=
  let stop := b.position + count
  let b := b.reserve stop
  { b with position := stop, length := max b.length stop }

/-- Moves the cursor to the next multiple of `alignment`. -/
def alignTo (b : Buffer) (alignment : Nat) : Buffer :=
  b.skip (alignUp b.position alignment - b.position)

/-- Stores bytes at the cursor and moves it behind them. -/
def write (b : Buffer) (bytes : Bytes) : Buffer :=
  let stop := b.position + bytes.size
  let ⟨data, position, length⟩ := b.reserve stop
  ⟨data.overlay position bytes, stop, max length stop⟩

/-- Stores the two's complement of a number in `width` bytes. -/
def writeNumber (b : Buffer) (width : Nat) (v : Int) : Buffer :=
  b.write (LittleEndian.encodeSigned width v).toArray

/-- Stores an unsigned LEB128 number. -/
def writeUnsignedLeb (b : Buffer) (v : UInt32) : Buffer :=
  b.write (Leb128.encodeUnsigned v)

/-- Stores a signed LEB128 number. -/
def writeSignedLeb (b : Buffer) (v : Int32) : Buffer :=
  b.write (Leb128.encodeSigned v)

/-- Stores a row at the cursor, field by field, and moves the cursor behind it. If a field did not
fit, the cursor would stay, with the fields before it stored. -/
def writeRow {α : Type} [Row α] (row : α) : EStateM Error Buffer Unit := fun b =>
  let ⟨data, position, length⟩ := b.reserve (b.position + Row.size α)
  let stored := Row.store data position row
  match stored.failure with
  | some e => .error e ⟨stored.buffer, position, length⟩
  | none => .ok () ⟨stored.buffer, stored.position, max length stored.position⟩

/-- Stores one byte at a position below the length; cursor and length stay as they are. -/
def poke (b : Buffer) (position : Nat) (byte : UInt8) : Buffer :=
  if position < b.length then { b with data := b.data.setIfInBounds position byte } else b

/-- The output: all bytes up to the length. -/
def written (b : Buffer) : Bytes :=
  b.data.extract 0 b.length

/-- The first `length` bytes of the block, which is made as long as that if it is shorter. -/
def take (b : Buffer) (length : Nat) : Bytes :=
  (b.reserve length).data.extract 0 length

end Buffer

end DexGraph
