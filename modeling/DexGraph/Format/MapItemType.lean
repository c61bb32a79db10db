/-!
# Kinds of map entries

The map list of an image names each of its sections by a 16-bit code. `MapItemType` lists the
known kinds, with their codes and the alignment their items need. `MapItemType.ofCode?_code`
says that a kind is found again under its code.
-/

namespace DexGraph

/-- The kind of a section, as the map list of an image names it. -/
inductive MapItemType
  | headerItem
  | stringIdItem
  | typeIdItem
  | protoIdItem
  | fieldIdItem
  | methodIdItem
  | classDefItem
  | callSiteIdItem
  | methodHandleItem
  | mapList
  | typeList
  | annotationSetRefList
  | annotationSetItem
  | classDataItem
  | codeItem
  | stringDataItem
  | debugInfoItem
  | annotationItem
  | encodedArrayItem
  | annotationsDirectoryItem
  | hiddenapiClassData
  deriving DecidableEq, Repr

namespace MapItemType

/-- All kinds, in the order of their codes. -/
def all : List MapItemType :=
  [headerItem, stringIdItem, typeIdItem, protoIdItem, fieldIdItem, methodIdItem, classDefItem,
    callSiteIdItem, methodHandleItem, mapList, typeList, annotationSetRefList, annotationSetItem,
    classDataItem, codeItem, stringDataItem, debugInfoItem, annotationItem, encodedArrayItem,
    annotationsDirectoryItem, hiddenapiClassData]

/-- The stored code of a kind. -/
def code : MapItemType → UInt16
  | headerItem => 0x0000
  | stringIdItem => 0x0001
  | typeIdItem => 0x0002
  | protoIdItem => 0x0003
  | fieldIdItem => 0x0004
  | methodIdItem => 0x0005
  | classDefItem => 0x0006
  | callSiteIdItem => 0x0007
  | methodHandleItem => 0x0008
  | mapList => 0x1000
  | typeList => 0x1001
  | annotationSetRefList => 0x1002
  | annotationSetItem => 0x1003
  | classDataItem => 0x2000
  | codeItem => 0x2001
  | stringDataItem => 0x2002
  | debugInfoItem => 0x2003
  | annotationItem => 0x2004
  | encodedArrayItem => 0x2005
  | annotationsDirectoryItem => 0x2006
  | hiddenapiClassData => 0xF000

/-- The name of a kind in messages. -/
def name : MapItemType → String
  | headerItem => "HeaderItem"
  | stringIdItem => "StringIdItem"
  | typeIdItem => "TypeIdItem"
  | protoIdItem => "ProtoIdItem"
  | fieldIdItem => "FieldIdItem"
  | methodIdItem => "MethodIdItem"
  | classDefItem => "ClassDefItem"
  | callSiteIdItem => "CallSiteIdItem"
  | methodHandleItem => "MethodHandleItem"
  | mapList => "MapList"
  | typeList => "TypeList"
  | annotationSetRefList => "AnnotationSetRefList"
  | annotationSetItem => "AnnotationSetItem"
  | classDataItem => "ClassDataItem"
  | codeItem => "CodeItem"
  | stringDataItem => "StringDataItem"
  | debugInfoItem => "DebugInfoItem"
  | annotationItem => "AnnotationItem"
  | encodedArrayItem => "EncodedArrayItem"
  | annotationsDirectoryItem => "AnnotationsDirectoryItem"
  | hiddenapiClassData => "HiddenapiClassData"

/-- The kind stored under a code, if the code is known. -/
def ofCode? (c : UInt16) : Option MapItemType :=
  all.find? fun kind => kind.code == c

/-- The alignment of the items of a kind: byte streams start anywhere, all else at words. -/
def alignment : MapItemType → Nat
  | classDataItem | stringDataItem | debugInfoItem | annotationItem | encodedArrayItem => 1
  | _ => 4

theorem mem_all (kind : MapItemType) : kind ∈ all := by
  cases kind <;> decide

theorem ofCode?_code (kind : MapItemType) : ofCode? kind.code = some kind := by
  cases kind <;> decide

end MapItemType

end DexGraph
