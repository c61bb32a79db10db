import DexGraph.Format.FileHeader

/-!
# Images

An image is a byte string with an accepted header. Only as many bytes as the header states belong
to it; what follows them is ignored.
-/

namespace DexGraph

/-- A byte string with its header. -/
structure Image where
  bytes : Bytes
  header : FileHeader
  deriving Repr

namespace Image

/-- Accepts a byte string as an image. -/
def load (bytes : Bytes) : Except Error Image := do
  if bytes.isEmpty then throw .empty
  let header ← FileHeader.read bytes
  header.validate bytes.size
  return ⟨bytes, header⟩

/-- Accepts the contents of a file as an image; `none` stands for a file that does not exist. -/
def loadFile (contents : Option Bytes) : Except Error Image :=
  match contents with
  | some bytes => load bytes
  | none => .error .fileNotFound

/-- The number of bytes that belong to the image. -/
def fileSize (image : Image) : Nat :=
  image.header.fileSize.toNat

/-- The bytes that belong to the image. -/
def data (image : Image) : Bytes :=
  image.bytes.extract 0 image.fileSize

/-- A range of bytes, which has to belong to the image. -/
def slice (image : Image) (offset length : Nat) : Except Error Bytes :=
  match image.data.slice? offset length with
  | some part => .ok part
  | none => .error .outOfBounds

end Image

end DexGraph
