import DexGraph.Bytes.Leb128
import DexGraph.Graph.Basic

/-!
# Hidden-API flags

For every class the hidden-API section holds the flags of its members, or nothing. The flags of a
class are set all at once and have to be as many as its members.
-/

namespace DexGraph

namespace HiddenApi

/-- The flags of a class, if it has any. -/
def classFlags? (h : HiddenApi) (classIndex : Nat) : Option (Array UInt32) :=
  h.flags[classIndex]?.join

/-- Sets the flags of a class; the classes before it that were not listed get none. -/
def setClassFlags (h : HiddenApi) (classIndex : Nat) (flags : Array UInt32) : HiddenApi :=
  let padded := h.flags ++ Array.replicate (classIndex + 1 - h.flags.size) none
  ⟨padded.setIfInBounds classIndex (some flags)⟩

/-- The size of the flags of a class as a sequence of LEB128 numbers. -/
def streamSize (flags : Array UInt32) : Nat :=
  flags.toList.foldr (fun flag size => Leb128.unsignedSize flag + size) 0

/-- The size of the section: the total size, an offset for each class, and the flags. -/
def byteSize (h : HiddenApi) : Nat :=
  h.flags.toList.foldr (fun flags size => streamSize (flags.getD #[]) + size)
    (4 + 4 * h.flags.size)

end HiddenApi

namespace Graph

/-- The number of members of a class; a class without class data has none. -/
def memberCount (g : Graph) (c : ClassDef) : Nat :=
  ((c.classData.bind g.get?).map ClassData.memberCount).getD 0

/-- Sets the hidden-API flags of the class with the given index, one for each member. -/
def setHiddenapiFlags (g : Graph) (classIndex : UInt32) (flags : Array UInt32) :
    Except Error Graph := do
  let r ← g.resolve .classDef classIndex
  let members := ((g.get? r).map g.memberCount).getD 0
  if members ≠ flags.size then
    throw (.malformed (.hiddenapiFlagCount classIndex members flags.size))
  let present := g.hiddenapi.getD ⟨Array.replicate (g.count .classDef) none⟩
  return { g with hiddenapi := some (present.setClassFlags classIndex.toNat flags) }

end Graph

end DexGraph
