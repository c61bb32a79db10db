import DexGraph.Assembly.Items
import DexGraph.Codec.HiddenApi
import DexGraph.Format.Row

/-!
# Assembling the tables

The tables are read in the order in which their entries need each other: strings, types,
prototypes, fields, methods and classes, as the header says, and then the method handles and call
sites that the map list names. In the end the entries of the map list are compared with what was
read, and the data items are put in the order of their offsets.
-/

namespace DexGraph.Build

/-! ## Rows -/

/-- Adds an entry of a table that starts at an offset. -/
def enterRow (s : Section) (offset index : UInt32) (x : s.Content) : Build (Ref s) :=
  fun source a => a.enterRow source.options.keepOffsets s offset index x

/-- Reads the row of an index of the table that starts at `start`. What it says about an entry is
found by `content`; when the entry has been added it is given to `added`. -/
def row (s : Section) (α : Type) [Row α] (start : UInt32) (content : UInt32 → α → Build s.Content)
    (added : Ref s → s.Content → Build Unit) (index : UInt32) : Build Unit := do
  let row ← ofExcept (Row.decodeAt (← read).data start index)
  let x ← content index row
  let r ← enterRow s start index x
  added r x

/-- Reads `left` more rows, of which the first has the given index. -/
def rowsFrom (row : UInt32 → Build Unit) : (left index : Nat) → Build Unit
  | 0, _ => return
  | left + 1, index => do
    row index.toUInt32
    rowsFrom row left (index + 1)

/-- Reads a table. -/
def table (s : Section) (α : Type) [Row α] (range : SectionRange)
    (content : UInt32 → α → Build s.Content)
    (added : Ref s → s.Content → Build Unit := fun _ _ => pure ()) : Build Unit := do
  changeLayout fun l => l.setSectionOffset s (some range.offset)
  rowsFrom (row s α range.offset content added) range.size.toNat 0

/-- Reads the string table. -/
def stringIds (range : SectionRange) : Build Unit :=
  table .stringId StringIdRow range fun _ row => do
    return ⟨← stringData row.dataOffset⟩

/-- Reads the type table. -/
def typeIds (range : SectionRange) : Build Unit :=
  table .typeId TypeIdRow range fun _ row => do
    return ⟨← resolve .stringId row.descriptor⟩

/-- Reads the prototype table. -/
def protoIds (range : SectionRange) : Build Unit :=
  table .protoId ProtoIdRow range fun _ row => do
    let shorty ← resolve .stringId row.shorty
    let returnType ← resolve .typeId row.returnType
    return ⟨shorty, returnType, ← typeList? row.parametersOffset⟩

/-- Reads the field table. -/
def fieldIds (range : SectionRange) : Build Unit :=
  table .fieldId FieldIdRow range fun _ row => do
    let owner ← resolve .typeId row.owner.toUInt32
    let type ← resolve .typeId row.type.toUInt32
    return ⟨owner, type, ← resolve .stringId row.name⟩

/-- Reads the method table. -/
def methodIds (range : SectionRange) : Build Unit :=
  table .methodId MethodIdRow range fun _ row => do
    let owner ← resolve .typeId row.owner.toUInt32
    let proto ← resolve .protoId row.proto.toUInt32
    return ⟨owner, proto, ← resolve .stringId row.name⟩

/-- What a row of the class table says. -/
def classDef (row : ClassDefRow) : Build ClassDef := do
  let type ← resolve .typeId row.type
  let superclass ← resolveOrNone .typeId row.superclass
  let interfaces ← typeList? row.interfacesOffset
  let sourceFile ← resolveOrNone .stringId row.sourceFile
  let annotations ← annotationsDirectory? row.annotationsOffset
  let staticValues ← encodedArray? row.staticValuesOffset
  let classData ← classData? row.classDataOffset
  return ⟨type, ⟨row.accessFlags⟩, superclass, interfaces, sourceFile, annotations, classData,
    staticValues⟩

/-- Tells the class data of a class to which class it belongs, unless an earlier class has it
too. -/
def claimMembers (r : Ref .classDef) (x : ClassDef) : Build Unit := do
  match x.classData with
  | some c => changeGraph fun g => g.modify c fun members => members.belongTo r
  | none => return

/-- Reads the class table. -/
def classDefs (range : SectionRange) : Build Unit :=
  table .classDef ClassDefRow range (fun _ => classDef) claimMembers

/-- The target of a method handle. -/
def handleTarget (kind : MethodHandleKind) (index : UInt16) : Build HandleTarget := do
  if kind.accessesField then return .field (← resolve .fieldId index.toUInt32)
  else return .method (← resolve .methodId index.toUInt32)

/-- Reads the table of method handles. -/
def methodHandles (range : SectionRange) : Build Unit :=
  table .methodHandle MethodHandleRow range fun index row => do
    match MethodHandleKind.ofCode? row.kind with
    | none => refuse (.methodHandleKind index row.kind)
    | some kind => return ⟨kind, ← handleTarget kind row.target⟩

/-- Reads the table of call sites. -/
def callSiteIds (range : SectionRange) : Build Unit :=
  table .callSiteId CallSiteIdRow range fun index row => do
    match ← encodedArray? row.arrayOffset with
    | none => refuse (.callSiteWithoutArray index)
    | some array => return ⟨array⟩

/-- Reads the section that the first entry of a kind in the map list names, if there is one. -/
def mapSection (kind : MapItemType) (take : SectionRange → Build Unit) : Build Unit := do
  match (← read).map.find? kind with
  | some entry => take ⟨entry.size, entry.offset⟩
  | none => return

/-! ## Hidden-API flags -/

/-- Reads the hidden-API flags at an offset. -/
def hiddenapi (range : SectionRange) : Build Unit := do
  let source ← read
  let g := (← get).graph
  let members := g.classDefs.items.map g.memberCount
  let ((size, flags), _) ← ofExcept ((HiddenApi.decode members).runAt source.data
    range.offset.toNat)
  let offset := if source.options.keepOffsets then some range.offset else none
  changeGraph fun g => { g with hiddenapi := some flags }
  changeLayout fun l => { l with hiddenapi := ⟨offset, size⟩ }

/-! ## Completion -/

/-- The size and the offset that an entry of the map list has to state, for the kinds for which
they are known otherwise: from the header, or from the table that was read. -/
def expectedRange? (header : FileHeader) (g : Graph) (entry : MapEntry) :
    MapItemType → Option SectionRange
  | .headerItem => some ⟨1, 0⟩
  | .mapList => some ⟨1, header.mapOffset⟩
  | .stringIdItem => some header.stringIds
  | .typeIdItem => some header.typeIds
  | .protoIdItem => some header.protoIds
  | .fieldIdItem => some header.fieldIds
  | .methodIdItem => some header.methodIds
  | .classDefItem => some header.classDefs
  | .callSiteIdItem => some ⟨g.callSiteIds.size.toUInt32, entry.offset⟩
  | .methodHandleItem => some ⟨g.methodHandles.size.toUInt32, entry.offset⟩
  | _ => none

/-- The section of data items that the map list names by a kind. -/
def dataSectionOf? (kind : MapItemType) : Option Section :=
  Section.dataSections.find? fun s => s.mapItemType = kind

/-- Checks an entry of the map list; that of a section of data items gives the section its
offset. An entry of an unknown kind is passed over. -/
def checkEntry (entry : MapEntry) : Build Unit := do
  match entry.kind? with
  | none => return
  | some kind =>
    match expectedRange? (← read).header (← get).graph entry kind with
    | some expected =>
      if entry.size ≠ expected.size || entry.offset ≠ expected.offset then
        refuse (.mapEntry kind entry.size entry.offset expected.size expected.offset)
    | none =>
      match dataSectionOf? kind with
      | some s => changeLayout fun l => l.setSectionOffset s (some entry.offset)
      | none => return

/-- Puts the data items of a section in the order of their offsets. -/
def sortSection (s : Section) : Build Unit :=
  modify fun a =>
    { a with graph := a.graph.setEntities s ((a.known.get s).sort (a.graph.entities s)) }

/-- Copies the link data. -/
def linkData (range : SectionRange) : Build Unit := do
  if range.size == 0 then return
  match (← read).data.slice? range.offset.toNat range.size.toNat with
  | some bytes => changeGraph fun g => { g with linkData := bytes }
  | none => ofExcept (.error .outOfBounds)

/-- Assembles a whole graph. -/
def all : Build Unit := do
  let source ← read
  let header := source.header
  stringIds header.stringIds
  typeIds header.typeIds
  protoIds header.protoIds
  fieldIds header.fieldIds
  methodIds header.methodIds
  classDefs header.classDefs
  mapSection .methodHandleItem methodHandles
  mapSection .callSiteIdItem callSiteIds
  if source.options.loadHiddenapi then
    mapSection .hiddenapiClassData hiddenapi
  source.map.entries.forM checkEntry
  Section.dataSections.forM sortSection
  linkData header.link

end DexGraph.Build
