import DexGraph.Graph.Collection
import Std.Data.TreeMap

/-!
# Offset indexes

While an image is read, an index remembers under which key each entity of a section was met, so
that two places that name the same offset come to share one entity. Keys are ordered, and
`OffsetIndex.sort` lays a collection out in their order.
-/

namespace DexGraph

/-- The entities of one section by the keys under which they were met. -/
structure OffsetIndex (κ : Type) [Ord κ] where
  slots : Std.TreeMap κ UInt32

namespace OffsetIndex

variable {κ : Type} [Ord κ] {s : Section}

/-- The index without entries. -/
def empty : OffsetIndex κ := ⟨∅⟩

instance : EmptyCollection (OffsetIndex κ) := ⟨empty⟩

/-- The number of entries. -/
def size (index : OffsetIndex κ) : Nat :=
  index.slots.size

/-- Whether there are no entries. -/
def isEmpty (index : OffsetIndex κ) : Bool :=
  index.slots.isEmpty

/-- The entity met under a key. -/
def get? (index : OffsetIndex κ) (key : κ) : Option (Ref s) :=
  index.slots[key]?.map .mk

/-- The entities in the order of their keys. -/
def inKeyOrder (index : OffsetIndex κ) : Array (Ref s) :=
  index.slots.valuesArray.map .mk

/-- Adds an entity to a collection and enters it under a key, which must be new. The offset is
the one that an error names. -/
def register (index : OffsetIndex κ) (c : Collection s) (key : κ) (offset : UInt32)
    (x : s.Content) : Except Error (Ref s × OffsetIndex κ × Collection s) :=
  if index.slots.contains key then .error (.duplicateItem s offset)
  else
    let (r, c) := c.add x
    .ok (r, ⟨index.slots.insert key r.slot⟩, c)

/-- Lays a collection out in the order of the keys; entities without a key come last. -/
def sort (index : OffsetIndex κ) (c : Collection s) : Collection s :=
  c.reorder index.inKeyOrder

end OffsetIndex

end DexGraph
