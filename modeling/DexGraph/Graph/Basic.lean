import DexGraph.Format.FileHeader
import DexGraph.Graph.Collection
import Std.Data.TreeMap

/-!
# Graphs

A graph holds everything that a DEX image says, and nothing of where in the image it says so: the
entities of all sections, the hidden-API flags, the link data and the version. It can be read
from an image, put together from nothing, changed, and laid out again.
-/

namespace DexGraph

/-- Where the graph keeps a method that a class declares. -/
structure MethodLocator where
  classData : Ref .classData
  kind : MethodKind
  position : Nat
  deriving DecidableEq, Repr

/-- The contents of a DEX image. -/
structure Graph where
  magic : Magic
  endianTag : UInt32
  linkData : Bytes
  stringDatas : Collection .stringData
  stringIds : Collection .stringId
  typeIds : Collection .typeId
  typeLists : Collection .typeList
  protoIds : Collection .protoId
  fieldIds : Collection .fieldId
  methodIds : Collection .methodId
  classDefs : Collection .classDef
  callSiteIds : Collection .callSiteId
  methodHandles : Collection .methodHandle
  encodedArrays : Collection .encodedArray
  annotationItems : Collection .annotationItem
  annotationSets : Collection .annotationSet
  annotationSetRefLists : Collection .annotationSetRefList
  annotationsDirectories : Collection .annotationsDirectory
  debugInfos : Collection .debugInfo
  codeItems : Collection .codeItem
  classDatas : Collection .classData
  hiddenapi : Option HiddenApi
  methodItems : Std.TreeMap UInt32 MethodLocator

namespace Graph

/-- The graph without entities whose images start with the given magic and endian tag. -/
def withMagic (magic : Magic) (endianTag : UInt32) : Graph where
  magic := magic
  endianTag := endianTag
  linkData := #[]
  stringDatas := ∅
  stringIds := ∅
  typeIds := ∅
  typeLists := ∅
  protoIds := ∅
  fieldIds := ∅
  methodIds := ∅
  classDefs := ∅
  callSiteIds := ∅
  methodHandles := ∅
  encodedArrays := ∅
  annotationItems := ∅
  annotationSets := ∅
  annotationSetRefLists := ∅
  annotationsDirectories := ∅
  debugInfos := ∅
  codeItems := ∅
  classDatas := ∅
  hiddenapi := none
  methodItems := ∅

/-- The graph without entities. -/
def empty : Graph :=
  withMagic FileHeader.currentMagic FileHeader.littleEndianTag

/-! ## Sections -/

/-- The entities of a section. -/
def entities (g : Graph) : (s : Section) → Collection s
  | .stringData => g.stringDatas
  | .stringId => g.stringIds
  | .typeId => g.typeIds
  | .typeList => g.typeLists
  | .protoId => g.protoIds
  | .fieldId => g.fieldIds
  | .methodId => g.methodIds
  | .classDef => g.classDefs
  | .callSiteId => g.callSiteIds
  | .methodHandle => g.methodHandles
  | .encodedArray => g.encodedArrays
  | .annotationItem => g.annotationItems
  | .annotationSet => g.annotationSets
  | .annotationSetRefList => g.annotationSetRefLists
  | .annotationsDirectory => g.annotationsDirectories
  | .debugInfo => g.debugInfos
  | .codeItem => g.codeItems
  | .classData => g.classDatas

/-- Replaces the entities of a section. -/
def setEntities (g : Graph) : (s : Section) → Collection s → Graph
  | .stringData, c => { g with stringDatas := c }
  | .stringId, c => { g with stringIds := c }
  | .typeId, c => { g with typeIds := c }
  | .typeList, c => { g with typeLists := c }
  | .protoId, c => { g with protoIds := c }
  | .fieldId, c => { g with fieldIds := c }
  | .methodId, c => { g with methodIds := c }
  | .classDef, c => { g with classDefs := c }
  | .callSiteId, c => { g with callSiteIds := c }
  | .methodHandle, c => { g with methodHandles := c }
  | .encodedArray, c => { g with encodedArrays := c }
  | .annotationItem, c => { g with annotationItems := c }
  | .annotationSet, c => { g with annotationSets := c }
  | .annotationSetRefList, c => { g with annotationSetRefLists := c }
  | .annotationsDirectory, c => { g with annotationsDirectories := c }
  | .debugInfo, c => { g with debugInfos := c }
  | .codeItem, c => { g with codeItems := c }
  | .classData, c => { g with classDatas := c }

theorem entities_setEntities_self (g : Graph) (s : Section) (c : Collection s) :
    (g.setEntities s c).entities s = c := by
  cases s <;> rfl

theorem entities_setEntities_of_ne (g : Graph) {s t : Section} (c : Collection s) (h : s ≠ t) :
    (g.setEntities s c).entities t = g.entities t := by
  cases s <;> cases t <;> simp [setEntities, entities] at h ⊢

/-- The number of entities of a section. -/
def count (g : Graph) (s : Section) : Nat :=
  (g.entities s).size

/-- The entity that a reference names. -/
def get? (g : Graph) {s : Section} (r : Ref s) : Option s.Content :=
  (g.entities s).get? r

/-- The reference to the entry of a table with the given index, which has to exist. -/
def resolve (g : Graph) (s : Section) (index : UInt32) : Except Error (Ref s) :=
  (g.entities s).resolve index

/-- Like `resolve`; the index `noIndex` stands for no entry. -/
def resolveOrNone (g : Graph) (s : Section) (index : UInt32) : Except Error (Option (Ref s)) :=
  (g.entities s).resolveOrNone index

/-- Takes the entities of a section out, so that they can be changed in place. -/
def takeEntities (g : Graph) (s : Section) : Collection s × Graph :=
  (g.entities s, g.setEntities s ∅)

/-- Adds an entity to its section. -/
def add (g : Graph) {s : Section} (x : s.Content) : Ref s × Graph :=
  let (c, g) := g.takeEntities s
  let (r, c) := c.add x
  (r, g.setEntities s c)

/-- Replaces an entity by its image. -/
def modify (g : Graph) {s : Section} (r : Ref s) (f : s.Content → s.Content) : Graph :=
  let (c, g) := g.takeEntities s
  g.setEntities s (c.modify r f)

/-- Puts the named entities of a section first. -/
def reorder (g : Graph) (s : Section) (first : Array (Ref s)) : Graph :=
  g.setEntities s ((g.entities s).reorder first)

/-- Adds a string: its text, and an entry of the string table for it. -/
def addString (g : Graph) (data : StringData) : Ref .stringId × Graph :=
  let (r, g) := g.add (s := .stringData) data
  g.add (s := .stringId) ⟨r⟩

/-! ## Methods -/

/-- The method that a locator names. -/
def methodAt? (g : Graph) (l : MethodLocator) : Option MethodItem := do
  let c ← g.classDatas.get? l.classData
  (c.methods l.kind)[l.position]?

/-- The method registered under an index of the method table. -/
def methodItem? (g : Graph) (index : UInt32) : Option MethodItem := do
  g.methodAt? (← g.methodItems[index]?)

/-- Registers a method under its index of the method table. -/
def registerMethod (g : Graph) (index : UInt32) (l : MethodLocator) : Graph :=
  { g with methodItems := g.methodItems.insert index l }

end Graph

end DexGraph
