import DexGraph.Format.FileHeader
import DexGraph.Section

/-!
# Layouts

A layout says where the entities of a graph lie in an image: the offset and the size of each of
them, the offsets of the sections, and the fields of the file header that describe the image
rather than the graph. It is kept apart from the graph, which makes sense without it. An entity
for which nothing has been recorded has the place `Place.fresh`.
-/

namespace DexGraph

/-- Where an item lies: its offset, if it has been assigned one, and its size. -/
structure Place where
  offset : Option UInt32 := none
  size : UInt32 := 0
  deriving DecidableEq, Repr, Inhabited

namespace Place

/-- The place of an entity that has just been added: it has no offset, and a size only if it is
an entry of a table. -/
def fresh (s : Section) : Place :=
  { size := (s.rowSize?.getD 0).toUInt32 }

/-- Whether an offset has been assigned. -/
def hasOffset (p : Place) : Bool :=
  p.offset.isSome

/-- The same place without its offset. -/
def clear (p : Place) : Place :=
  { p with offset := none }

end Place

/-- Where a section lies: its offset and the places of its entities by slot, as far as they have
been recorded. -/
structure SectionLayout where
  offset : Option UInt32 := none
  places : Array Place := #[]
  deriving DecidableEq, Repr, Inhabited

namespace SectionLayout

/-- The same section with no offset assigned. -/
def clear (l : SectionLayout) : SectionLayout :=
  { offset := none, places := l.places.map .clear }

/-- Changes the place of a slot; the slots below it that have not been recorded are fresh. -/
def modifyPlace (l : SectionLayout) (fresh : Place) (i : Nat) (f : Place → Place) :
    SectionLayout :=
  if i < l.places.size then { l with places := l.places.modify i f }
  else
    { l with places := (l.places ++ Array.replicate (i - l.places.size) fresh).push (f fresh) }

end SectionLayout

/-- Where the entities of a graph lie in an image, and the header fields that describe it. -/
structure Layout where
  sections : PerSection SectionLayout
  hiddenapi : Place
  checksum : UInt32
  signature : Signature
  fileSize : UInt32
  headerSize : UInt32
  linkOffset : UInt32
  mapOffset : UInt32
  dataSize : UInt32
  dataOffset : UInt32
  deriving Repr

namespace Layout

/-- The layout in which nothing has a place. -/
def empty : Layout where
  sections := .replicate {}
  hiddenapi := {}
  checksum := 0
  signature := Vector.replicate 20 0
  fileSize := 0
  headerSize := FileHeader.byteSize.toUInt32
  linkOffset := 0
  mapOffset := 0
  dataSize := 0
  dataOffset := 0

/-- The layout in which nothing has a place yet but the fields of a header are known. -/
def ofHeader (header : FileHeader) : Layout where
  sections := .replicate {}
  hiddenapi := {}
  checksum := header.checksum
  signature := header.signature
  fileSize := header.fileSize
  headerSize := header.headerSize
  linkOffset := header.link.offset
  mapOffset := header.mapOffset
  dataSize := header.data.size
  dataOffset := header.data.offset

/-- The offset of a section. -/
def sectionOffset (l : Layout) (s : Section) : Option UInt32 :=
  (l.sections.get s).offset

/-- Assigns or clears the offset of a section. -/
def setSectionOffset (l : Layout) (s : Section) (offset : Option UInt32) : Layout :=
  { l with sections := l.sections.modify s fun sl => { sl with offset := offset } }

/-- The place of an entity. -/
def place (l : Layout) {s : Section} (r : Ref s) : Place :=
  (l.sections.get s).places[r.pos]?.getD (Place.fresh s)

/-- Changes the place of an entity. -/
def modifyPlace (l : Layout) {s : Section} (r : Ref s) (f : Place → Place) : Layout :=
  { l with sections := l.sections.modify s fun sl => sl.modifyPlace (Place.fresh s) r.pos f }

/-- Records the place of an entity. -/
def setPlace (l : Layout) {s : Section} (r : Ref s) (p : Place) : Layout :=
  l.modifyPlace r fun _ => p

/-- Records the size of an entity. -/
def setSize (l : Layout) {s : Section} (r : Ref s) (size : UInt32) : Layout :=
  l.modifyPlace r fun p => { p with size := size }

/-- Assigns or clears the offset of an entity. -/
def setOffset (l : Layout) {s : Section} (r : Ref s) (offset : Option UInt32) : Layout :=
  l.modifyPlace r fun p => { p with offset := offset }

/-- Records the offset at which an entity was met, if offsets are to be kept. -/
def captureOffset (l : Layout) (keep : Bool) {s : Section} (r : Ref s) (offset : UInt32) :
    Layout :=
  if keep then l.setOffset r (some offset) else l

/-- The offset of an entity, which has to have one. -/
def offsetOf (l : Layout) {s : Section} (r : Ref s) : Except Error UInt32 :=
  match (l.place r).offset with
  | some offset => .ok offset
  | none => .error (.unassignedOffset (.entity s))

/-- The offset of the hidden-API flags, which have to have one. -/
def hiddenapiOffset (l : Layout) : Except Error UInt32 :=
  match l.hiddenapi.offset with
  | some offset => .ok offset
  | none => .error (.unassignedOffset .hiddenapi)

/-- The offset that is stored for an optional reference: zero stands for none. -/
def offsetOrZero (l : Layout) {s : Section} : Option (Ref s) → Except Error UInt32
  | some r => l.offsetOf r
  | none => .ok 0

/-- The same layout with no offset assigned to any entity or section. -/
def clearOffsets (l : Layout) : Layout :=
  { l with sections := l.sections.map .clear, hiddenapi := l.hiddenapi.clear }

/-- The same layout with no offset assigned to a section or any entity of it. -/
def clearSection (l : Layout) (s : Section) : Layout :=
  { l with sections := l.sections.modify s .clear }

theorem place_clearOffsets {s : Section} (l : Layout) (r : Ref s) :
    (l.clearOffsets.place r) = (l.place r).clear := by
  simp only [place, clearOffsets, PerSection.get_map, SectionLayout.clear, Array.getElem?_map]
  cases (l.sections.get s).places[r.pos]? <;> rfl

end Layout

end DexGraph
