import DexGraph.Bytes.Leb128
import DexGraph.Graph.Basic
import DexGraph.Layout

/-!
# Strings, type lists and annotation sets

The data items that are plain sequences: a string is its length in UTF-16 units and its bytes up
to a zero, the others are a count and as many indices or offsets. An offset of zero stands for
nothing. Offsets are written as a layout says.
-/

namespace DexGraph

namespace StringData

/-- The bytes of a string. -/
def encode (data : StringData) : Bytes :=
  Leb128.encodeUnsigned data.utf16Length ++ data.bytes ++ .ofByte 0

/-- Reads a string. -/
def decode : Decoder StringData := do
  let utf16Length ← Decoder.unsignedLeb
  return ⟨utf16Length, ← Decoder.cstring⟩

end StringData

/-- The number of elements of a list and the bytes of each of them. -/
def encodeList {α : Type} (elements : Array α) (element : α → Except Error Bytes) :
    Except Error Bytes := do
  let count ← toWord elements.size
  elements.foldlM (fun bytes a => return bytes ++ (← element a)) (Bytes.ofWord count)

namespace TypeList

/-- The bytes of a type list. -/
def encode (list : TypeList) : Except Error Bytes :=
  encodeList list.types fun r => return .ofHalfWord (← toHalfWord r.pos)

/-- Reads a type list. -/
def decode (g : Graph) : Decoder TypeList := do
  let count ← Decoder.word
  let types ← gather count.toNat do
    let index ← Decoder.halfWord
    Decoder.ofExcept (g.resolve .typeId index.toUInt32)
  return ⟨types⟩

end TypeList

namespace AnnotationSet

/-- The bytes of an annotation set. -/
def encode (l : Layout) (set : AnnotationSet) : Except Error Bytes :=
  encodeList set.items fun r => return .ofWord (← l.offsetOf r)

end AnnotationSet

namespace AnnotationSetRefList

/-- The bytes of a list of annotation sets. -/
def encode (l : Layout) (list : AnnotationSetRefList) : Except Error Bytes :=
  encodeList list.items fun r => return .ofWord (← l.offsetOrZero r)

end AnnotationSetRefList

namespace MemberAnnotations

/-- The bytes of an entry of a directory. -/
def encode {member notes : Section} (l : Layout) (entry : MemberAnnotations member notes) :
    Except Error Bytes := do
  return .ofWord entry.owner.slot ++ .ofWord (← l.offsetOrZero entry.annotations)

/-- The bytes of the entries of a directory behind those that are given. -/
def encodeEach {member notes : Section} (l : Layout) (bytes : Bytes)
    (entries : Array (MemberAnnotations member notes)) : Except Error Bytes :=
  entries.foldlM (fun bytes entry => return bytes ++ (← entry.encode l)) bytes

end MemberAnnotations

namespace AnnotationsDirectory

/-- The bytes of a directory of annotations: the sizes of its three lists stand before all of
them. -/
def encode (l : Layout) (directory : AnnotationsDirectory) : Except Error Bytes := do
  let head := Bytes.ofWord (← l.offsetOrZero directory.classAnnotations) ++
    .ofWord (← toWord directory.fields.size) ++ .ofWord (← toWord directory.methods.size) ++
    .ofWord (← toWord directory.parameters.size)
  let bytes ← MemberAnnotations.encodeEach l head directory.fields
  let bytes ← MemberAnnotations.encodeEach l bytes directory.methods
  MemberAnnotations.encodeEach l bytes directory.parameters

end AnnotationsDirectory

end DexGraph
