import DexGraph.Assembly.Tables
import DexGraph.CodeOrder
import DexGraph.CrossReferences
import DexGraph.Graph.HiddenApi
import DexGraph.Graph.Names
import DexGraph.OutputFile
import DexGraph.Writing.Image

/-!
# DEX files

A `Dex` is a graph together with its layout and the cross references that were last collected. It
is read from an image, changed, and written again. Writing changes the layout alone, collecting
cross references changes these alone, and laying code out in class order changes the order of the
bodies alone.
-/

namespace DexGraph

/-- A graph, where its entities lie in an image, and which entries its methods name. -/
structure Dex where
  graph : Graph
  layout : Layout
  references : CrossReferences

namespace Dex

/-- The file without contents. -/
def empty : Dex :=
  ⟨.empty, .empty, {}⟩

/-- The file without contents whose image has the given header. -/
def ofHeader (header : FileHeader) : Dex :=
  ⟨.withMagic header.magic header.endianTag, .ofHeader header, {}⟩

/-- Reads the contents of an image. -/
def ofImage (options : BuildOptions) (image : Image) : Except Error Dex := do
  let data := image.data
  let map ← MapList.read data image.header.mapOffset
  let ((), a) ← Build.all ⟨data, image.header, map, options⟩ (Assembly.start image.header)
  return ⟨a.graph, a.layout, {}⟩

/-- Writes the image. The layout is changed as far as writing has come, even if it fails. -/
def write (d : Dex) (options : WriteOptions) : Except Error Bytes × Dex :=
  let (outcome, layout) := d.graph.write options d.layout
  (outcome, { d with layout := layout })

/-- Writes the image to a new file in a directory that exists. The result is what is found there
afterwards. -/
def writeFile (d : Dex) (options : WriteOptions) : Except Error (Option Bytes) × Dex :=
  let (outcome, d) := d.write options
  (outcome.bind fun image => do
    let file ← OutputFile.create true image.size
    let file ← file.writeAt 0 image
    return file.close true, d)

/-- Collects the cross references anew. -/
def findReferences (d : Dex) : Dex :=
  { d with references := d.references.refresh d.graph }

/-- Puts the bodies in the order in which the classes use them. -/
def orderCodeByClass (d : Dex) : Dex :=
  { d with graph := d.graph.orderCodeByClass }

/-- Clears all offsets. -/
def clearOffsets (d : Dex) : Dex :=
  { d with layout := d.layout.clearOffsets }

/-- Adds an entity. -/
def add (d : Dex) {s : Section} (x : s.Content) : Ref s × Dex :=
  let { graph, layout, references } := d
  let (r, graph) := graph.add x
  (r, ⟨graph, layout, references⟩)

/-- Adds a string: its text, and an entry of the string table for it. -/
def addString (d : Dex) (data : StringData) : Ref .stringId × Dex :=
  let { graph, layout, references } := d
  let (r, graph) := graph.addString data
  (r, ⟨graph, layout, references⟩)

/-- Replaces an entity by its image. -/
def modify (d : Dex) {s : Section} (r : Ref s) (f : s.Content → s.Content) : Dex :=
  let { graph, layout, references } := d
  ⟨graph.modify r f, layout, references⟩

/-- Sets the hidden-API flags of the class with the given index, one for each member. -/
def setHiddenapiFlags (d : Dex) (classIndex : UInt32) (flags : Array UInt32) :
    Except Error Dex := do
  return { d with graph := ← d.graph.setHiddenapiFlags classIndex flags }

/-- Changes the place of the hidden-API flags, if there are any. -/
def modifyHiddenapiPlace (d : Dex) (f : Place → Place) : Dex :=
  if d.graph.hiddenapi.isSome then
    { d with layout := { d.layout with hiddenapi := f d.layout.hiddenapi } }
  else d

end Dex

end DexGraph
