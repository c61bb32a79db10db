import DexGraph.Format.MapList
import DexGraph.Graph.Basic
import DexGraph.Layout

/-!
# The map list of a graph

The map list names the header, itself and each section that is not empty, in the order of their
offsets. Bodies and debug info count as far as they have been placed.
-/

namespace DexGraph

/-- A section as the map list is going to name it. -/
structure MapCandidate where
  kind : MapItemType
  count : Nat
  offset : Option UInt32
  deriving DecidableEq, Repr

namespace MapCandidate

/-- The entry of the map list; a section without items has none. -/
def entry? (c : MapCandidate) : Except Error (Option MapEntry) :=
  if c.count = 0 then .ok none
  else
    match c.offset with
    | none => .error (.unassignedOffset (.range c.kind))
    | some offset => do
      return some ⟨c.kind.code, ← toWord c.count, offset⟩

end MapCandidate

namespace MapEntry

/-- The order of entries: by offset, then by code, then by size. -/
def le (a b : MapEntry) : Bool :=
  if a.offset = b.offset then
    if a.code = b.code then a.size ≤ b.size else a.code ≤ b.code
  else a.offset ≤ b.offset

end MapEntry

/-- The number of entities of a section that have an offset. -/
def placedCount (g : Graph) (l : Layout) (s : Section) : Nat :=
  ((g.entities s).order.filter fun r => (l.place r).hasOffset).size

/-- A section with the number of its entities. -/
def MapCandidate.ofSection (g : Graph) (l : Layout) (s : Section) : MapCandidate :=
  let count := match s with
    | .codeItem | .debugInfo => placedCount g l s
    | _ => g.count s
  ⟨s.mapItemType, count, l.sectionOffset s⟩

/-- All sections that the map list may name, in the order in which they are looked at. -/
def mapCandidates (g : Graph) (l : Layout) : List MapCandidate :=
  [⟨.headerItem, 1, some 0⟩] ++
    [Section.stringId, .typeId, .protoId, .fieldId, .methodId, .classDef, .callSiteId,
      .methodHandle].map (.ofSection g l) ++
    [⟨.mapList, 1, some l.mapOffset⟩] ++
    [Section.typeList, .annotationSetRefList, .annotationSet, .classData, .codeItem, .stringData,
      .debugInfo, .annotationItem, .encodedArray, .annotationsDirectory].map (.ofSection g l) ++
    match g.hiddenapi with
    | some _ => [⟨.hiddenapiClassData, 1, l.hiddenapi.offset⟩]
    | none => []

/-- The map list of a graph under a layout. -/
def mapListOf (g : Graph) (l : Layout) : Except Error MapList := do
  let entries ← (mapCandidates g l).mapM MapCandidate.entry?
  return ⟨((entries.filterMap id).mergeSort MapEntry.le).toArray⟩

end DexGraph
