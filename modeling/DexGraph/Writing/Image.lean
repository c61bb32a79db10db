import DexGraph.Codec.ClassData
import DexGraph.Codec.HiddenApi
import DexGraph.Codec.Lists
import DexGraph.Codec.Tables
import DexGraph.Codec.Value
import DexGraph.Writing.Code
import DexGraph.Writing.MapEntries

/-!
# Writing a whole image

The tables come first and the data items after them, each behind whatever it has to name by its
offset. The rows of the tables that name data items are filled in at the end. The map list and
the link data follow, and the header is put in front when all of its fields are known.
-/

namespace DexGraph

namespace Writer

/-- The alignment of the data section and of the map list. -/
def dataAlignment : Nat := 8

/-- Stores the tables that name no data items, and sets room aside for the others. -/
def writeTables : Writer Unit := do
  reserveTable .stringId
  writeTable .typeId fun _ x => TypeId.toRow x
  reserveTable .protoId
  writeTable .fieldId fun _ x => FieldId.toRow x
  writeTable .methodId fun _ x => MethodId.toRow x
  reserveTable .classDef
  reserveTable .callSiteId
  writeTable .methodHandle fun _ x => MethodHandle.toRow x

/-- Opens the data section, if the layout is computed. -/
def openData : Writer Unit := do
  if ← computesOffsets then
    changeStream fun stream => stream.alignTo dataAlignment
    let start ← ofExcept (toWord (← tell))
    changeLayout fun l => { l with dataOffset := start }

/-- Stores the hidden-API flags. -/
def writeHiddenapi : Writer Unit := do
  match (← read).graph.hiddenapi with
  | none => return
  | some flags =>
    let recorded := (← get).layout.hiddenapi
    let start ← place recorded.offset MapItemType.hiddenapiClassData.alignment .hiddenapi
    let item ← ofExcept (flags.encode recorded.size)
    changeStream fun stream => stream ++ item
    let size ← ofExcept (toWord ((← tell) - start.toNat))
    changeLayout fun l => { l with hiddenapi := ⟨some start, size⟩ }

/-- Stores the data items of all sections. -/
def writeData : Writer Unit := do
  reserveCode
  writeItems .debugInfo (← debugInfoRefs) fun _ x => .ok (Stream.ofBytes x.bytes)
  writeCode
  writeSection .encodedArray fun _ x => return Stream.ofBytes (← Value.encodeArray x.values).toArray
  writeSection .annotationItem fun _ x =>
    return Stream.ofBytes (x.visibility.code :: (← x.body.encode)).toArray
  writeSection .annotationSet fun l x => return Stream.ofBytes (← x.encode l)
  writeSection .annotationSetRefList fun l x => return Stream.ofBytes (← x.encode l)
  writeSection .annotationsDirectory fun l x => return Stream.ofBytes (← x.encode l)
  writeSection .typeList fun _ x => return Stream.ofBytes (← x.encode)
  writeSection .classData fun l x => return Stream.ofBytes (← x.encode l)
  writeSection .stringData fun _ x => .ok (Stream.ofBytes x.encode)
  writeHiddenapi

/-- Fills in the tables that name data items. -/
def fillTables : Writer Unit := do
  fillTable .stringId fun l x => x.toRow l
  fillTable .protoId fun l x => x.toRow l
  fillTable .classDef fun l x => x.toRow l
  fillTable .callSiteId fun l x => x.toRow l

/-- Stores the map list. If the layout is computed it comes behind everything else and closes the
data section. -/
def writeMapList : Writer Unit := do
  if ← computesOffsets then
    changeStream fun stream => (stream.seek stream.length).alignTo dataAlignment
    let offset ← ofExcept (toWord (← tell))
    changeLayout fun l => { l with mapOffset := offset }
  else
    let offset := (← get).layout.mapOffset
    changeStream fun stream => stream.seek offset.toNat
  let list ← ofExcept (mapListOf (← read).graph (← get).layout)
  let bytes ← ofExcept list.encode
  changeStream fun stream => stream.write bytes
  if ← computesOffsets then
    changeStream fun stream => stream.alignTo dataAlignment
    let stop ← ofExcept (toWord (← tell))
    changeLayout fun l => { l with dataSize := stop - l.dataOffset }

/-- Stores the link data. If the layout is computed it comes behind the data section. -/
def writeLinkData : Writer Unit := do
  let link := (← read).graph.linkData
  if link.isEmpty then
    if ← computesOffsets then
      changeLayout fun l => { l with linkOffset := 0 }
    return
  if ← computesOffsets then
    let offset ← ofExcept (toWord (← tell))
    changeLayout fun l => { l with linkOffset := offset }
  else
    let offset := (← get).layout.linkOffset
    changeStream fun stream => stream.seek offset.toNat
  changeStream fun stream => stream.write link

/-- Fixes the size of the image: that of the output if the layout is computed, or else the one
that is recorded, past which nothing may have been stored. -/
def closeImage : Writer Bytes := do
  let length := (← get).stream.length
  if ← computesOffsets then
    let fileSize ← ofExcept (toWord length)
    changeLayout fun l => { l with fileSize := fileSize }
  else
    let fileSize := (← get).layout.fileSize
    if length > fileSize.toNat then throw (.writeFailed (.pastFileSize length fileSize))
  let d ← get
  return d.stream.contents d.layout.fileSize.toNat

/-- The range of a table in the header; a table without entries has the offset zero. -/
def tableRange (g : Graph) (l : Layout) (s : Section) : Except Error SectionRange := do
  let size ← toWord (g.count s)
  return ⟨size, if size == 0 then 0 else (l.sectionOffset s).getD 0⟩

/-- The header of a graph under a layout. -/
def headerOf (g : Graph) (l : Layout) : Except Error FileHeader := do
  return {
    magic := g.magic
    checksum := l.checksum
    signature := l.signature
    fileSize := l.fileSize
    headerSize := FileHeader.byteSize.toUInt32
    endianTag := g.endianTag
    link := ⟨← toWord g.linkData.size, l.linkOffset⟩
    mapOffset := l.mapOffset
    stringIds := ← tableRange g l .stringId
    typeIds := ← tableRange g l .typeId
    protoIds := ← tableRange g l .protoId
    fieldIds := ← tableRange g l .fieldId
    methodIds := ← tableRange g l .methodId
    classDefs := ← tableRange g l .classDef
    data := ⟨l.dataSize, l.dataOffset⟩ }

/-- Puts the header in front of an image, and brings the signature and then the checksum up to
date as far as they are wanted. -/
def stampHeader (image : Bytes) : Writer Bytes := do
  let options := (← read).options
  let header ← ofExcept (headerOf (← read).graph (← get).layout)
  let image ← ofExcept (header.store image)
  let signature := if options.updateSignature then imageSignature image else header.signature
  let image := image.overlay FileHeader.signatureOffset signature.toArray
  let checksum := if options.updateChecksum then imageChecksum image else header.checksum
  let image := image.overlay FileHeader.checksumOffset (.ofWord checksum)
  changeLayout fun l => { l with signature := signature, checksum := checksum }
  return image

/-- Writes the whole image. -/
def writeImage : Writer Bytes := do
  if ← computesOffsets then
    changeLayout .clearOffsets
  changeStream fun stream => stream.skip FileHeader.byteSize
  writeTables
  openData
  writeData
  fillTables
  writeMapList
  writeLinkData
  let image ← closeImage
  stampHeader image

end Writer

namespace Graph

/-- Writes a graph under a layout. The result is the image, unless writing fails, and the layout
as far as it has become known. -/
def write (g : Graph) (options : WriteOptions) (layout : Layout) : Except Error Bytes × Layout :=
  match Writer.writeImage ⟨g, options, g.liveCode⟩ ⟨∅, layout⟩ with
  | .ok image d => (.ok image, d.layout)
  | .error e d => (.error e, d.layout)

end Graph

end DexGraph
