import DexGraph.Bytes.Stream
import DexGraph.Format.Row
import DexGraph.Graph.Basic
import DexGraph.Layout
import Std.Data.TreeSet

/-!
# Writing a graph

A graph is written in one of two modes. Either every entity is stored where its layout says, and
an entity without an offset is an error; or the layout is computed while writing, each item being
placed at the next aligned position. A writer changes the layout and the output and never the
graph. When it fails it leaves the layout as far as it has come.
-/

namespace DexGraph

/-- How a graph is written. -/
structure WriteOptions where
  /-- Whether the layout is computed anew. -/
  computeOffsets : Bool
  /-- Whether the checksum is brought up to date. -/
  updateChecksum : Bool
  /-- Whether the signature is brought up to date. -/
  updateSignature : Bool
  deriving DecidableEq, Repr

namespace WriteOptions

/-- Writes a graph back to where it came from. -/
def preserving : WriteOptions := ⟨false, true, false⟩

/-- Lays a graph out anew. -/
def relayout : WriteOptions := ⟨true, true, true⟩

end WriteOptions

/-- What is to be written, how, and which bodies are in use. -/
structure Job where
  graph : Graph
  options : WriteOptions
  live : Std.TreeSet UInt32

/-- What has been written: the output and the layout as it is known so far. -/
structure Draft where
  stream : Stream
  layout : Layout

/-- A step of writing a graph. -/
abbrev Writer (α : Type) : Type :=
  ReaderT Job (EStateM Error Draft) α

namespace Writer

variable {α : Type}

/-- Takes an outcome that writes nothing. -/
def ofExcept : Except Error α → Writer α
  | .ok a => return a
  | .error e => throw e

/-- Changes the output. -/
def changeStream (f : Stream → Stream) : Writer Unit :=
  modify fun d => { d with stream := f d.stream }

/-- Changes the layout. -/
def changeLayout (f : Layout → Layout) : Writer Unit :=
  modify fun d => { d with layout := f d.layout }

/-- The current position of the output. -/
def tell : Writer Nat := do
  return (← get).stream.position

/-- Whether the layout is computed anew. -/
def computesOffsets : Writer Bool := do
  return (← read).options.computeOffsets

/-- Goes to where an item is to be stored and gives its offset: the next aligned position, or the
offset that the layout has for it. -/
def place (offset : Option UInt32) (alignment : Nat) (subject : Unplaced) : Writer UInt32 := do
  if ← computesOffsets then
    changeStream fun s => s.alignTo alignment
    ofExcept (toWord (← tell))
  else
    match offset with
    | some offset =>
      changeStream fun s => s.seek offset.toNat
      return offset
    | none => throw (.unassignedOffset subject)

/-! ## Tables -/

/-- Sets room aside for a table, if the layout is computed: each entry gets its offset, but the
rows are filled in later. -/
def reserveTable (s : Section) : Writer Unit := do
  let count := (← read).graph.count s
  if (← computesOffsets) && count != 0 then
    let rowSize := s.rowSize?.getD 0
    changeStream fun stream => stream.alignTo 4
    let start ← tell
    changeLayout fun l =>
      (count.fold
        (fun i _ l => l.setOffset (.ofPos i : Ref s) (some (start + i * rowSize).toUInt32))
        l).setSectionOffset s (some start.toUInt32)
    changeStream fun stream => stream.skip (count * rowSize)

/-- Stores the rows of a table. -/
def fillTable (s : Section) {row : Type} [Row row]
    (toRow : Layout → s.Content → Except Error row) : Writer Unit := do
  let entries := ((← read).graph.entities s).items
  if entries.isEmpty then return
  match (← get).layout.sectionOffset s with
  | none => throw (.unassignedOffset (.entity s))
  | some offset =>
    changeStream fun stream => stream.seek offset.toNat
    entries.forM fun x => do
      let row ← ofExcept (toRow (← get).layout x)
      changeStream fun stream => stream.write (Row.encode row)

/-- Sets room aside for a table and fills it at once. -/
def writeTable (s : Section) {row : Type} [Row row]
    (toRow : Layout → s.Content → Except Error row) : Writer Unit := do
  reserveTable s
  fillTable s toRow

/-! ## Data items -/

/-- Stores one data item and records its place. The result is the least offset so far. -/
def writeItem (s : Section) (encode : Layout → s.Content → Except Error Stream)
    (first : UInt32) (r : Ref s) : Writer UInt32 := do
  match (← read).graph.get? r with
  | none => return first
  | some x =>
    let start ← place ((← get).layout.place r).offset s.alignment (.entity s)
    let item ← ofExcept (encode (← get).layout x)
    changeStream fun stream => stream ++ item
    let size ← ofExcept (toWord ((← tell) - start.toNat))
    changeLayout fun l => l.setPlace r ⟨some start, size⟩
    return min first start

/-- Stores the named data items of a section in their order. The section gets the least of their
offsets, if the layout is computed or the section has none. -/
def writeItems (s : Section) (refs : Array (Ref s))
    (encode : Layout → s.Content → Except Error Stream) : Writer Unit := do
  if refs.isEmpty then return
  let first ← refs.foldlM (writeItem s encode) 0xFFFFFFFF
  if (← computesOffsets) || ((← get).layout.sectionOffset s).isNone then
    changeLayout fun l => l.setSectionOffset s (some first)

/-- Stores all data items of a section in their order. -/
def writeSection (s : Section) (encode : Layout → s.Content → Except Error Stream) :
    Writer Unit := do
  writeItems s ((← read).graph.entities s).order encode

end Writer

end DexGraph
