import DexGraph.Bytes.Leb128

/-!
# Output streams

A stream is an output of unbounded length with a cursor, which starts out as zeros. It keeps the
stores made so far, so that a gap costs nothing however wide it is; `Stream.contents` lays them
over zeros in the order in which they were made. The length of a stream is the furthest position
that a store or a skip has reached; moving the cursor alone does not change it.

A stream that was filled from its own start serves as the image of one item: `Stream.append`
puts it down at the cursor of another stream.
-/

namespace DexGraph

/-- Bytes stored from a position on. -/
structure Store where
  position : Nat
  bytes : Bytes
  deriving DecidableEq, Repr

/-- The same bytes, `distance` positions further on. -/
def Store.shift (store : Store) (distance : Nat) : Store :=
  { store with position := distance + store.position }

/-- An output of unbounded length with a cursor. -/
structure Stream where
  stores : Array Store := #[]
  position : Nat := 0
  length : Nat := 0
  deriving DecidableEq, Repr

namespace Stream

/-- The stream into which nothing has been written. -/
def empty : Stream := {}

instance : EmptyCollection Stream := ⟨empty⟩

/-- Whether nothing has been written or skipped. -/
def isEmpty (s : Stream) : Bool :=
  s.length == 0

/-- Moves the cursor. -/
def seek (s : Stream) (position : Nat) : Stream :=
  { s with position := position }

/-- Moves the cursor over `count` bytes, which keep their values. -/
def skip (s : Stream) (count : Nat) : Stream :=
  let stop := s.position + count
  { s with position := stop, length := max s.length stop }

/-- Moves the cursor to the next multiple of `alignment`. -/
def alignTo (s : Stream) (alignment : Nat) : Stream :=
  s.skip (alignUp s.position alignment - s.position)

/-- Stores bytes at the cursor and moves it behind them. -/
def write : Stream → Bytes → Stream
  | ⟨stores, position, length⟩, bytes =>
    let stop := position + bytes.size
    ⟨stores.push ⟨position, bytes⟩, stop, max length stop⟩

/-- Stores one byte at a position below the length; cursor and length stay as they are. -/
def poke (s : Stream) (position : Nat) (b : UInt8) : Stream :=
  if position < s.length then { s with stores := s.stores.push ⟨position, #[b]⟩ } else s

/-- Puts another stream down at the cursor: its stores follow in their order, its cursor becomes
the cursor, and its length counts from here. -/
def append : Stream → Stream → Stream
  | ⟨stores, position, length⟩, item =>
    ⟨stores ++ item.stores.map (·.shift position), position + item.position,
      max length (position + item.length)⟩

instance : Append Stream := ⟨append⟩

/-- The stream that holds the given bytes, with the cursor behind them. -/
def ofBytes (bytes : Bytes) : Stream :=
  empty.write bytes

/-- The first `length` bytes: the stores laid over zeros in their order. -/
def contents (s : Stream) (length : Nat) : Bytes :=
  s.stores.foldl (fun bytes store => bytes.overlay store.position store.bytes)
    (Array.replicate length 0)

/-- All bytes up to the length. -/
def toBytes (s : Stream) : Bytes :=
  s.contents s.length

private theorem size_foldl_overlay (stores : List Store) (bytes : Bytes) :
    (stores.foldl (fun bytes store => bytes.overlay store.position store.bytes) bytes).size =
      bytes.size := by
  induction stores generalizing bytes with
  | nil => rfl
  | cons store stores ih => rw [List.foldl_cons, ih, Bytes.size_overlay]

@[simp] theorem size_contents (s : Stream) (length : Nat) : (s.contents length).size = length := by
  rw [contents, ← Array.foldl_toList, size_foldl_overlay, Array.size_replicate]

theorem length_seek (s : Stream) (position : Nat) : (s.seek position).length = s.length := rfl

theorem length_skip (s : Stream) (count : Nat) :
    (s.skip count).length = max s.length (s.position + count) := rfl

theorem length_write (s : Stream) (bytes : Bytes) :
    (s.write bytes).length = max s.length (s.position + bytes.size) := rfl

end Stream

end DexGraph
