import DexGraph.Format.MapItemType

/-!
# Sections and references

The entities of a graph lie in eighteen sections. Eight of them are tables, whose entries are
rows of a fixed size addressed by index; the other ten hold data items, which an image addresses
by offset. A reference `Ref s` names an entity of section `s` by its slot and stays valid while
entities are added or put in another order.
-/

namespace DexGraph

/-- The sections that hold the entities of a graph. -/
inductive Section
  | stringData
  | stringId
  | typeId
  | typeList
  | protoId
  | fieldId
  | methodId
  | classDef
  | callSiteId
  | methodHandle
  | encodedArray
  | annotationItem
  | annotationSet
  | annotationSetRefList
  | annotationsDirectory
  | debugInfo
  | codeItem
  | classData
  deriving DecidableEq, Repr

namespace Section

/-- How many sections there are. -/
abbrev count : Nat := 18

/-- The position of a section in an enumeration of all of them. -/
def index : Section → Fin count
  | stringData => 0
  | stringId => 1
  | typeId => 2
  | typeList => 3
  | protoId => 4
  | fieldId => 5
  | methodId => 6
  | classDef => 7
  | callSiteId => 8
  | methodHandle => 9
  | encodedArray => 10
  | annotationItem => 11
  | annotationSet => 12
  | annotationSetRefList => 13
  | annotationsDirectory => 14
  | debugInfo => 15
  | codeItem => 16
  | classData => 17

theorem index_inj {s t : Section} : s.index = t.index ↔ s = t := by
  constructor
  · cases s <;> cases t <;> decide
  · exact congrArg index

/-- The name of an entity of a section in messages. -/
def kind : Section → String
  | stringData => "string_data"
  | stringId => "string_id"
  | typeId => "type_id"
  | typeList => "type_list"
  | protoId => "proto_id"
  | fieldId => "field_id"
  | methodId => "method_id"
  | classDef => "class_def"
  | callSiteId => "call_site_id"
  | methodHandle => "method_handle"
  | encodedArray => "encoded_array"
  | annotationItem => "annotation_item"
  | annotationSet => "annotation_set_item"
  | annotationSetRefList => "annotation_set_ref_list"
  | annotationsDirectory => "annotations_directory_item"
  | debugInfo => "debug_info_item"
  | codeItem => "code_item"
  | classData => "class_data"

/-- The name of an entity of a section in the label of a reference to it. -/
def entityName : Section → String
  | stringData => "StringData"
  | stringId => "StringId"
  | typeId => "TypeId"
  | typeList => "TypeList"
  | protoId => "ProtoId"
  | fieldId => "FieldId"
  | methodId => "MethodId"
  | classDef => "ClassDef"
  | callSiteId => "CallSiteId"
  | methodHandle => "MethodHandleItem"
  | encodedArray => "EncodedArrayItem"
  | annotationItem => "AnnotationItem"
  | annotationSet => "AnnotationSetItem"
  | annotationSetRefList => "AnnotationSetRefList"
  | annotationsDirectory => "AnnotationsDirectoryItem"
  | debugInfo => "DebugInfoItem"
  | codeItem => "CodeItem"
  | classData => "ClassData"

/-- The kind under which the map list names a section. -/
def mapItemType : Section → MapItemType
  | stringData => .stringDataItem
  | stringId => .stringIdItem
  | typeId => .typeIdItem
  | typeList => .typeList
  | protoId => .protoIdItem
  | fieldId => .fieldIdItem
  | methodId => .methodIdItem
  | classDef => .classDefItem
  | callSiteId => .callSiteIdItem
  | methodHandle => .methodHandleItem
  | encodedArray => .encodedArrayItem
  | annotationItem => .annotationItem
  | annotationSet => .annotationSetItem
  | annotationSetRefList => .annotationSetRefList
  | annotationsDirectory => .annotationsDirectoryItem
  | debugInfo => .debugInfoItem
  | codeItem => .codeItem
  | classData => .classDataItem

/-- The alignment of the items of a section. -/
def alignment (s : Section) : Nat :=
  s.mapItemType.alignment

/-- The size of an entry of a table, and `none` for the sections of data items. -/
def rowSize? : Section → Option Nat
  | stringId | typeId | callSiteId => some 4
  | protoId => some 12
  | fieldId | methodId | methodHandle => some 8
  | classDef => some 32
  | _ => none

/-- The sections of data items, in the order of `index`. -/
def dataSections : List Section :=
  [stringData, typeList, encodedArray, annotationItem, annotationSet, annotationSetRefList,
    annotationsDirectory, debugInfo, codeItem, classData]

theorem mem_dataSections {s : Section} : s ∈ dataSections ↔ s.rowSize? = none := by
  cases s <;> decide

end Section

/-- A reference to an entity of section `s`: the slot under which it was added. -/
structure Ref (s : Section) where
  slot : UInt32
  deriving DecidableEq, Repr, Inhabited

namespace Ref

variable {s : Section}

/-- The slot as a position in an array. -/
abbrev pos (r : Ref s) : Nat :=
  r.slot.toNat

/-- The reference to the entity at a position. -/
def ofPos (i : Nat) : Ref s :=
  ⟨i.toUInt32⟩

/-- A reference as it is shown to a reader: the kind of entity and the slot. -/
def label (r : Ref s) : String :=
  s!"{s.entityName}#{r.slot}"

theorem pos_ofPos {i : Nat} (h : i < 0x100000000) : (ofPos i : Ref s).pos = i := by
  simp only [pos, ofPos, Nat.toUInt32_eq, UInt32.toNat_ofNat']
  exact Nat.mod_eq_of_lt h

end Ref

/-- The index that stands for no entry of a table. -/
def noIndex : UInt32 := 0xFFFFFFFF

/-- One value for every section. -/
structure PerSection (α : Type) where
  values : Vector α Section.count
  deriving Repr

namespace PerSection

variable {α : Type}

/-- The same value for every section. -/
def replicate (a : α) : PerSection α :=
  ⟨Vector.replicate Section.count a⟩

/-- The value of a section. -/
def get (p : PerSection α) (s : Section) : α :=
  p.values[s.index]

/-- Replaces the value of a section by its image. -/
def modify (p : PerSection α) (s : Section) (f : α → α) : PerSection α :=
  ⟨⟨p.values.toArray.modify s.index f, by simp⟩⟩

/-- Replaces every value by its image. -/
def map {β : Type} (p : PerSection α) (f : α → β) : PerSection β :=
  ⟨p.values.map f⟩

@[simp] theorem get_replicate (a : α) (s : Section) : (replicate a).get s = a := by
  simp [replicate, get]

@[simp] theorem get_map {β : Type} (p : PerSection α) (f : α → β) (s : Section) :
    (p.map f).get s = f (p.get s) := by
  simp [map, get]

theorem get_modify (p : PerSection α) (s t : Section) (f : α → α) :
    (p.modify s f).get t = if s = t then f (p.get t) else p.get t := by
  have h : (s.index.val = t.index.val) = (s = t) := by
    rw [← Fin.ext_iff, Section.index_inj]
  simp only [modify, get, Fin.getElem_fin, Vector.getElem_mk, Array.getElem_modify, h]
  rfl

end PerSection

end DexGraph
