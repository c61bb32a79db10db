import DexGraph.Format.MapList
import DexGraph.Graph.Basic
import DexGraph.Graph.OffsetIndex
import DexGraph.Image
import DexGraph.Layout

/-!
# Assembling a graph

A graph is assembled from an image table by table. Whatever an entry refers to by offset is read
when it is first met and shared from then on. An `Assembly` is the graph so far, the offsets and
sizes that were met, and the indexes that make sharing possible.
-/

namespace DexGraph

/-- What is taken over from an image beside its contents. -/
structure BuildOptions where
  /-- Whether entities keep the offsets at which they were met. -/
  keepOffsets : Bool
  /-- Whether the hidden-API flags are read. -/
  loadHiddenapi : Bool
  deriving DecidableEq, Repr

namespace BuildOptions

/-- For a graph that is to be written back to where it came from. -/
def preserving : BuildOptions := ⟨true, true⟩

/-- For a graph that is to be laid out anew. -/
def relayout : BuildOptions := ⟨false, true⟩

end BuildOptions

/-- What a data item is known by while a graph is assembled: its offset and, for a body, the offset
of its debug info as well. -/
structure ItemKey where
  offset : UInt32
  debugInfoOffset : UInt32
  deriving DecidableEq, Repr

namespace ItemKey

instance : Ord ItemKey :=
  ⟨compareLex (compareOn offset) (compareOn debugInfoOffset)⟩

/-- The key of an item that is known by its offset alone. -/
def ofOffset (offset : UInt32) : ItemKey :=
  ⟨offset, 0⟩

end ItemKey

/-- What a graph is assembled from. -/
structure Source where
  data : Bytes
  header : FileHeader
  map : MapList
  options : BuildOptions

/-- A graph in the making. -/
structure Assembly where
  graph : Graph
  layout : Layout
  known : PerSection (OffsetIndex ItemKey)

namespace Assembly

/-- The assembly of which only the header has been read. -/
def start (header : FileHeader) : Assembly where
  graph := .withMagic header.magic header.endianTag
  layout := .ofHeader header
  known := .replicate ∅

/-- Adds a data item under a key; it takes so many bytes at the offset of the key. -/
def enter (a : Assembly) (keepOffsets : Bool) (s : Section) (key : ItemKey) (size : UInt32)
    (x : s.Content) : Except Error (Ref s × Assembly) :=
  let (c, graph) := a.graph.takeEntities s
  match (a.known.get s).register c key key.offset x with
  | .ok (r, index, c) =>
    .ok (r, {
      graph := graph.setEntities s c
      layout := (a.layout.setSize r size).captureOffset keepOffsets r key.offset
      known := a.known.modify s fun _ => index })
  | .error e => .error e

/-- Adds the entry of the given index of a table that starts at `table`. -/
def enterRow (a : Assembly) (keepOffsets : Bool) (s : Section) (table index : UInt32)
    (x : s.Content) : Except Error (Ref s × Assembly) :=
  let (c, graph) := a.graph.takeEntities s
  match c.addAt index x with
  | .ok (r, c) =>
    let rowSize := (s.rowSize?.getD 0).toUInt32
    .ok (r, {
      a with
      graph := graph.setEntities s c
      layout := a.layout.captureOffset keepOffsets r (table + index * rowSize) })
  | .error e => .error e

end Assembly

/-- A step of assembling a graph. -/
abbrev Build (α : Type) : Type :=
  ReaderT Source (StateT Assembly (Except Error)) α

/-- A step of assembling a graph that also reads the image from a position on. -/
abbrev Reading (α : Type) : Type :=
  StateT Nat (ReaderT Source (StateT Assembly (Except Error))) α

namespace Build

variable {α : Type}

/-- Takes an outcome that does not depend on the assembly. -/
def ofExcept (outcome : Except Error α) : Build α :=
  fun _ a => outcome.map (·, a)

/-- Fails because the image contradicts itself. -/
def refuse (defect : Defect) : Build α :=
  ofExcept (.error (.malformed defect))

/-- Changes the graph. -/
def changeGraph (f : Graph → Graph) : Build Unit :=
  modify fun a => { a with graph := f a.graph }

/-- Changes the layout. -/
def changeLayout (f : Layout → Layout) : Build Unit :=
  modify fun a => { a with layout := f a.layout }

/-- The reference to the entry of a table with the given index, which has to exist. -/
def resolve (s : Section) (index : UInt32) : Build (Ref s) := do
  ofExcept ((← get).graph.resolve s index)

/-- Like `resolve`; the index `noIndex` stands for no entry. -/
def resolveOrNone (s : Section) (index : UInt32) : Build (Option (Ref s)) := do
  ofExcept ((← get).graph.resolveOrNone s index)

/-- The data item that was added under a key before. -/
def known? (s : Section) (key : ItemKey) : Build (Option (Ref s)) := do
  return ((← get).known.get s).get? key

/-- Adds a data item under a key; it starts at the offset of the key and ends at `stop`. -/
def enter (s : Section) (key : ItemKey) (stop : Nat) (x : s.Content) : Build (Ref s) := do
  let size ← ofExcept (toWord (stop - key.offset.toNat))
  fun source a => a.enter source.options.keepOffsets s key size x

/-- The data item of a key: the one that was added under it before or, for the first time, the one
that is read from a position on. -/
def itemOf (s : Section) (key : ItemKey) (position : Nat) (read : Reading s.Content) :
    Build (Ref s) := do
  match ← known? s key with
  | some r => return r
  | none =>
    let (x, stop) ← read.run position
    enter s key stop x

/-- The data item at an offset, where it is read when it is met for the first time. -/
def itemAt (s : Section) (offset : UInt32) (read : Reading s.Content) : Build (Ref s) :=
  itemOf s (.ofOffset offset) offset.toNat read

/-- The data item at an offset; the offset zero stands for none. -/
def itemAt? (s : Section) (offset : UInt32) (read : Reading s.Content) :
    Build (Option (Ref s)) := do
  if offset == 0 then return none else return some (← itemAt s offset read)

end Build

namespace Reading

variable {α : Type}

/-- Reads with a decoder. -/
def decode (d : Decoder α) : Reading α :=
  fun position source a => (d source.data position).map (·, a)

/-- Reads with a decoder that looks indices up in the graph. -/
def decodeWith (d : Graph → Decoder α) : Reading α :=
  fun position source a => (d a.graph source.data position).map (·, a)

end Reading

end DexGraph
