import DexGraph.Format.Row
import DexGraph.Graph.Entities
import DexGraph.Layout

/-!
# Entries of the tables

The row of an entry of a table: references into other tables become indices, and references to
data items become the offsets that a layout assigns to them. Some indices have only 16 bits.
-/

namespace DexGraph

/-- The index of an optional entry. -/
def indexOrNone {s : Section} (r : Option (Ref s)) : UInt32 :=
  (r.map (·.slot)).getD noIndex

namespace StringId

/-- The row of an entry of the string table. -/
def toRow (l : Layout) (x : StringId) : Except Error StringIdRow := do
  return ⟨← l.offsetOf x.data⟩

end StringId

namespace TypeId

/-- The row of an entry of the type table. -/
def toRow (x : TypeId) : Except Error TypeIdRow :=
  .ok ⟨x.descriptor.slot⟩

end TypeId

namespace ProtoId

/-- The row of an entry of the prototype table. -/
def toRow (l : Layout) (x : ProtoId) : Except Error ProtoIdRow := do
  return ⟨x.shorty.slot, x.returnType.slot, ← l.offsetOrZero x.parameters⟩

end ProtoId

namespace FieldId

/-- The row of an entry of the field table. -/
def toRow (x : FieldId) : Except Error FieldIdRow := do
  return ⟨← toHalfWord x.owner.pos, ← toHalfWord x.type.pos, x.name.slot⟩

end FieldId

namespace MethodId

/-- The row of an entry of the method table. -/
def toRow (x : MethodId) : Except Error MethodIdRow := do
  return ⟨← toHalfWord x.owner.pos, ← toHalfWord x.proto.pos, x.name.slot⟩

end MethodId

namespace ClassDef

/-- The row of an entry of the class table. -/
def toRow (l : Layout) (x : ClassDef) : Except Error ClassDefRow := do
  let interfaces ← l.offsetOrZero x.interfaces
  let annotations ← l.offsetOrZero x.annotations
  let classData ← l.offsetOrZero x.classData
  let staticValues ← l.offsetOrZero x.staticValues
  return ⟨x.type.slot, x.accessFlags.bits, indexOrNone x.superclass, interfaces,
    indexOrNone x.sourceFile, annotations, classData, staticValues⟩

end ClassDef

namespace CallSiteId

/-- The row of an entry of the table of call sites. -/
def toRow (l : Layout) (x : CallSiteId) : Except Error CallSiteIdRow := do
  return ⟨← l.offsetOf x.array⟩

end CallSiteId

namespace MethodHandle

/-- The row of an entry of the table of method handles. -/
def toRow (x : MethodHandle) : Except Error MethodHandleRow := do
  return ⟨x.kind.code, ← toHalfWord x.target.index.toNat⟩

end MethodHandle

end DexGraph
