import DexGraph.Bytes.Leb128
import DexGraph.Graph.Basic
import DexGraph.Layout

/-!
# Class data

The members of a class stand in four lists, each in ascending order of their indices. A member
is written as the difference of its index to the one before it, its access flags and, for a
method, the offset of its body, which is zero for a native method.
-/

namespace DexGraph

/-- The index of a member from the one before it and the difference of the two. -/
def nextIndex (previous delta : UInt32) : Except Error UInt32 :=
  if previous.toNat + delta.toNat < 0x100000000 then .ok (previous + delta)
  else .error (.malformed (.memberIndexOverflow previous delta))

/-- The difference of the index of a member to the one before it. The first member of a list has
none before it and is written with its index. -/
def memberDelta (previous : Option UInt32) (index : UInt32) : Except Error UInt32 :=
  match previous with
  | none => .ok index
  | some p => if index ≤ p then .error (.malformed (.membersOutOfOrder index p)) else .ok (index - p)

/-- Bytes written so far and the index of the last member. -/
structure MemberBytes where
  bytes : Bytes
  last : Option UInt32
  deriving DecidableEq, Repr

namespace FieldItem

/-- Reads `count` more fields of a list behind those that are given; `previous` is the index of
the last of them. -/
def decodeFrom (g : Graph) (previous : UInt32) (fields : Array FieldItem) :
    (count : Nat) → Decoder (Array FieldItem)
  | 0 => return fields
  | count + 1 => do
    let delta ← Decoder.unsignedLeb
    let index ← Decoder.ofExcept (nextIndex previous delta)
    let flags ← Decoder.unsignedLeb
    let field ← Decoder.ofExcept (g.resolve .fieldId index)
    decodeFrom g index (fields.push ⟨⟨flags⟩, field, none⟩) count

/-- Reads a list of fields. -/
def decodeList (g : Graph) (count : UInt32) : Decoder (Array FieldItem) :=
  decodeFrom g 0 #[] count.toNat

/-- Adds the bytes of a field. -/
def encode (out : MemberBytes) (f : FieldItem) : Except Error MemberBytes := do
  let delta ← memberDelta out.last f.field.slot
  return ⟨out.bytes ++ Leb128.encodeUnsigned delta ++ Leb128.encodeUnsigned f.accessFlags.bits,
    some f.field.slot⟩

end FieldItem

namespace MethodItem

/-- Adds the bytes of a method. -/
def encode (l : Layout) (out : MemberBytes) (m : MethodItem) : Except Error MemberBytes := do
  let delta ← memberDelta out.last m.method.slot
  let codeOffset ← l.offsetOrZero m.body?
  return ⟨out.bytes ++ Leb128.encodeUnsigned delta ++ Leb128.encodeUnsigned m.accessFlags.bits ++
    Leb128.encodeUnsigned codeOffset, some m.method.slot⟩

end MethodItem

namespace ClassData

/-- The bytes of the members of a class. -/
def encode (l : Layout) (c : ClassData) : Except Error Bytes := do
  let head := Leb128.encodeUnsigned (← toWord c.staticFields.size) ++
    Leb128.encodeUnsigned (← toWord c.instanceFields.size) ++
    Leb128.encodeUnsigned (← toWord c.directMethods.size) ++
    Leb128.encodeUnsigned (← toWord c.virtualMethods.size)
  let out ← c.staticFields.foldlM FieldItem.encode ⟨head, none⟩
  let out ← c.instanceFields.foldlM FieldItem.encode { out with last := none }
  let out ← c.directMethods.foldlM (MethodItem.encode l) { out with last := none }
  let out ← c.virtualMethods.foldlM (MethodItem.encode l) { out with last := none }
  return out.bytes

end ClassData

end DexGraph
