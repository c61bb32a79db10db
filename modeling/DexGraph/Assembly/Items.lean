import DexGraph.Assembly.Basic
import DexGraph.Codec.ClassData
import DexGraph.Codec.CodeItem
import DexGraph.Codec.DebugInfo
import DexGraph.Codec.Lists
import DexGraph.Codec.Value

/-!
# Assembling data items

How the data items of an image are read, together with the items to which they refer. What an
item refers to is read as soon as its offset has been read.
-/

namespace DexGraph.Build

open Reading (decode decodeWith)

/-- The string at an offset. -/
def stringData (offset : UInt32) : Build (Ref .stringData) :=
  itemAt .stringData offset (decode StringData.decode)

/-- The type list at an offset. -/
def typeList? (offset : UInt32) : Build (Option (Ref .typeList)) :=
  itemAt? .typeList offset (decodeWith TypeList.decode)

/-- The array of values at an offset. -/
def encodedArray? (offset : UInt32) : Build (Option (Ref .encodedArray)) :=
  itemAt? .encodedArray offset do
    return ⟨← decodeWith Value.decodeArray⟩

/-! ## Annotations -/

/-- The annotation at an offset. -/
def annotationItem (offset : UInt32) : Build (Ref .annotationItem) :=
  itemAt .annotationItem offset do
    let code ← decode Decoder.byte
    match Visibility.ofCode? code with
    | some visibility => return ⟨visibility, ← decodeWith Annotation.decode⟩
    | none => refuse (.visibility offset code)

/-- The annotation set at an offset. Entries without an annotation are left out. -/
def annotationSet? (offset : UInt32) : Build (Option (Ref .annotationSet)) :=
  itemAt? .annotationSet offset do
    let count ← decode Decoder.word
    let items ← gather count.toNat do
      let itemOffset ← decode Decoder.word
      if itemOffset == 0 then return none else return some (← annotationItem itemOffset)
    return ⟨items.filterMap id⟩

/-- The list of annotation sets at an offset. -/
def annotationSetRefList? (offset : UInt32) : Build (Option (Ref .annotationSetRefList)) :=
  itemAt? .annotationSetRefList offset do
    let count ← decode Decoder.word
    let items ← gather count.toNat do
      let setOffset ← decode Decoder.word
      annotationSet? setOffset
    return ⟨items⟩

/-- An entry of a directory of annotations. -/
def memberAnnotations (member notes : Section)
    (notesAt? : UInt32 → Build (Option (Ref notes))) :
    Reading (MemberAnnotations member notes) := do
  let index ← decode Decoder.word
  let offset ← decode Decoder.word
  let owner ← resolve member index
  return ⟨owner, ← notesAt? offset⟩

/-- The directory of annotations at an offset. -/
def annotationsDirectory? (offset : UInt32) : Build (Option (Ref .annotationsDirectory)) :=
  itemAt? .annotationsDirectory offset do
    let classOffset ← decode Decoder.word
    let fieldCount ← decode Decoder.word
    let methodCount ← decode Decoder.word
    let parameterCount ← decode Decoder.word
    let classAnnotations ← annotationSet? classOffset
    let fields ← gather fieldCount.toNat (memberAnnotations .fieldId _ annotationSet?)
    let methods ← gather methodCount.toNat (memberAnnotations .methodId _ annotationSet?)
    let parameters ← gather parameterCount.toNat
      (memberAnnotations .methodId _ annotationSetRefList?)
    return ⟨classAnnotations, fields, methods, parameters⟩

/-! ## Code and classes -/

/-- The debug info at an offset. -/
def debugInfo? (offset : UInt32) : Build (Option (Ref .debugInfo)) :=
  itemAt? .debugInfo offset (decode DebugInfo.decode)

/-- The body at an offset. Its header, which says where its debug info lies, is read each time
that the body is met. -/
def codeItem? (offset : UInt32) : Build (Option (Ref .codeItem)) := do
  if offset == 0 then return none
  let (header, start) ← (decode CodeHeader.decode).run offset.toNat
  let r ← itemOf .codeItem ⟨offset, header.debugInfoOffset⟩ start do
    let debugInfo ← debugInfo? header.debugInfoOffset
    decodeWith fun g => CodeItem.decodeAfter g header debugInfo
  return some r

/-- Reads `count` more methods of a list behind those that are given; `previous` is the index of
the last of them. -/
def methodsFrom (previous : UInt32) (methods : Array MethodItem) :
    (count : Nat) → Reading (Array MethodItem)
  | 0 => return methods
  | count + 1 => do
    let delta ← decode Decoder.unsignedLeb
    let index ← ofExcept (nextIndex previous delta)
    let flags ← decode Decoder.unsignedLeb
    let codeOffset ← decode Decoder.unsignedLeb
    let method ← resolve .methodId index
    let code ← codeItem? codeOffset
    methodsFrom index (methods.push ⟨⟨flags⟩, method, code, none⟩) count

/-- Registers the methods of a class, the direct ones first. -/
def registerMethods (r : Ref .classData) (g : Graph) : Graph :=
  match g.get? r with
  | none => g
  | some c =>
    let register kind (g : Graph) :=
      (c.methods kind).zipIdx.foldl
        (fun g (m, i) => g.registerMethod m.method.slot ⟨r, kind, i⟩) g
    register .virtual (register .direct g)

/-- Reads the members of a class. -/
def classMembers : Reading ClassData := do
  let staticCount ← decode Decoder.unsignedLeb
  let instanceCount ← decode Decoder.unsignedLeb
  let directCount ← decode Decoder.unsignedLeb
  let virtualCount ← decode Decoder.unsignedLeb
  let staticFields ← decodeWith fun g => FieldItem.decodeList g staticCount
  let instanceFields ← decodeWith fun g => FieldItem.decodeList g instanceCount
  let directMethods ← methodsFrom 0 #[] directCount.toNat
  let virtualMethods ← methodsFrom 0 #[] virtualCount.toNat
  return ⟨none, staticFields, instanceFields, directMethods, virtualMethods⟩

/-- The class data at an offset. When it is met for the first time its members are told where
they belong, and its methods are registered. -/
def classData? (offset : UInt32) : Build (Option (Ref .classData)) := do
  if offset == 0 then return none
  match ← known? .classData (.ofOffset offset) with
  | some r => return some r
  | none =>
    let (members, stop) ← classMembers.run offset.toNat
    let r ← enter .classData (.ofOffset offset) stop members
    changeGraph fun g => registerMethods r (g.modify r fun c => c.attach r)
    return some r

end DexGraph.Build
