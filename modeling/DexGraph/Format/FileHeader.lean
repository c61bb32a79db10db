import DexGraph.Bytes.Decoder
import DexGraph.Checksum.Adler32
import DexGraph.Checksum.Sha1

/-!
# The file header

An image opens with a header of 112 bytes: the magic with the version, a checksum over all that
follows it, a signature over all that follows that, and where the sections lie.
`FileHeader.validate` says which headers are accepted.
-/

namespace DexGraph

/-- Where a section lies: the number of its items, or of bytes for the data section, and its
offset. -/
structure SectionRange where
  size : UInt32
  offset : UInt32
  deriving DecidableEq, Repr, Inhabited

/-- The eight bytes that open an image. -/
abbrev Magic : Type := Vector UInt8 8

/-- The digest by which an image is told from others. -/
abbrev Signature : Type := Vector UInt8 20

/-- The header of an image. -/
structure FileHeader where
  magic : Magic
  checksum : UInt32
  signature : Signature
  fileSize : UInt32
  headerSize : UInt32
  endianTag : UInt32
  link : SectionRange
  mapOffset : UInt32
  stringIds : SectionRange
  typeIds : SectionRange
  protoIds : SectionRange
  fieldIds : SectionRange
  methodIds : SectionRange
  classDefs : SectionRange
  data : SectionRange
  deriving DecidableEq, Repr

namespace Decoder

/-- The next `n` bytes, of which there are exactly so many. -/
def vector (n : Nat) : Decoder (Vector UInt8 n) := do
  let part ← bytes n
  if h : part.size = n then return ⟨part, h⟩ else fail .outOfBounds

/-- The next range of a section. -/
def range : Decoder SectionRange := do
  return ⟨← word, ← word⟩

end Decoder

namespace SectionRange

/-- The bytes of a range. -/
def encode (r : SectionRange) : Bytes :=
  .ofWord r.size ++ .ofWord r.offset

end SectionRange

namespace FileHeader

/-- The size of a header. -/
def byteSize : Nat := 0x70

/-- Where the checksum is stored. -/
def checksumOffset : Nat := 8

/-- Where the signature is stored, and from where on the checksum counts. -/
def signatureOffset : Nat := 12

/-- From where on the signature counts. -/
def signedOffset : Nat := 32

/-- The endian tag of an image whose numbers are little-endian. -/
def littleEndianTag : UInt32 := 0x12345678

/-- The endian tag of an image whose numbers are big-endian. -/
def bigEndianTag : UInt32 := 0x78563412

/-- The magic of version 35. -/
def currentMagic : Magic := #v[0x64, 0x65, 0x78, 0x0A, 0x30, 0x33, 0x35, 0x00]

/-- The header that is zero throughout. -/
def zero : FileHeader :=
  ⟨Vector.replicate 8 0, 0, Vector.replicate 20 0, 0, 0, 0, ⟨0, 0⟩, 0, ⟨0, 0⟩, ⟨0, 0⟩, ⟨0, 0⟩, ⟨0, 0⟩,
    ⟨0, 0⟩, ⟨0, 0⟩, ⟨0, 0⟩⟩

/-- Reads a header. -/
def decode : Decoder FileHeader := do
  let magic ← Decoder.vector 8
  let checksum ← Decoder.word
  let signature ← Decoder.vector 20
  let fileSize ← Decoder.word
  let headerSize ← Decoder.word
  let endianTag ← Decoder.word
  let link ← Decoder.range
  let mapOffset ← Decoder.word
  let stringIds ← Decoder.range
  let typeIds ← Decoder.range
  let protoIds ← Decoder.range
  let fieldIds ← Decoder.range
  let methodIds ← Decoder.range
  let classDefs ← Decoder.range
  let data ← Decoder.range
  return ⟨magic, checksum, signature, fileSize, headerSize, endianTag, link, mapOffset,
    stringIds, typeIds, protoIds, fieldIds, methodIds, classDefs, data⟩

/-- Reads the header at the start of an image. -/
def read (image : Bytes) : Except Error FileHeader := do
  let (header, _) ← decode.runAt image 0
  return header

/-- The bytes of a header. -/
def encode (header : FileHeader) : Bytes :=
  header.magic.toArray ++ .ofWord header.checksum ++ header.signature.toArray ++
    .ofWord header.fileSize ++ .ofWord header.headerSize ++ .ofWord header.endianTag ++
    header.link.encode ++ .ofWord header.mapOffset ++ header.stringIds.encode ++
    header.typeIds.encode ++ header.protoIds.encode ++ header.fieldIds.encode ++
    header.methodIds.encode ++ header.classDefs.encode ++ header.data.encode

/-- Stores a header at the start of a buffer, all of it or nothing. -/
def store (header : FileHeader) (buffer : Bytes) : Except Error Bytes :=
  if buffer.size < byteSize then .error .outOfBounds else .ok (buffer.overlay 0 header.encode)

/-! ## The version -/

/-- The bytes of a magic that name the version. -/
def versionBytes (magic : Magic) : List UInt8 :=
  [magic[4], magic[5], magic[6]]

/-- Whether a byte is a decimal digit. -/
def isDigit (b : UInt8) : Bool :=
  0x30 ≤ b && b ≤ 0x39

/-- The number that decimal digits write. -/
def ofDigits (digits : List UInt8) : Nat :=
  digits.foldl (fun n b => n * 10 + (b.toNat - 0x30)) 0

/-- The version of an image: three decimal digits before a zero byte. -/
def version? (header : FileHeader) : Option Nat :=
  let digits := versionBytes header.magic
  if header.magic[7] == 0 && digits.all isDigit then some (ofDigits digits) else none

/-- The version that a magic names, whatever its last byte is; a plus sign may stand before the
digits. -/
def namedVersion? (magic : Magic) : Option Nat :=
  let digits := match versionBytes magic with
    | 0x2B :: rest => rest
    | bytes => bytes
  if digits.all isDigit then some (ofDigits digits) else none

/-! ## Acceptance -/

/-- Accepts the header of an image of the given size if the image can be read: it is a plain
image of a version from 35 to 40 with little-endian numbers, and all of it is there. -/
def validate (header : FileHeader) (imageSize : Nat) : Except Error Unit := do
  let kind := header.magic.toList.take 4
  if kind = [0x63, 0x64, 0x65, 0x78] then throw .notSupported
  if kind ≠ [0x64, 0x65, 0x78, 0x0A] then throw .invalidMagic
  match header.version? with
  | some version =>
    if version < 35 || 40 < version then
      throw (.unsupportedVersion (versionBytes header.magic))
  | none => throw (.unsupportedVersion (versionBytes header.magic))
  if header.endianTag = bigEndianTag then throw .notSupported
  if header.endianTag ≠ littleEndianTag then
    throw (.malformed (.endianTag header.endianTag))
  if header.headerSize.toNat ≠ byteSize then
    throw (.malformed (.headerSize header.headerSize))
  if header.fileSize.toNat < byteSize || imageSize < header.fileSize.toNat then
    throw (.malformed (.fileSize header.fileSize imageSize))

end FileHeader

/-! ## Checksum and signature of an image -/

/-- The checksum of an image: that of all bytes behind the stored one. -/
def imageChecksum (image : Bytes) : UInt32 :=
  adler32 (image.extract FileHeader.signatureOffset image.size)

/-- The signature of an image: the digest of all bytes behind the stored one. -/
def imageSignature (image : Bytes) : Signature :=
  sha1 (image.extract FileHeader.signedOffset image.size)

/-- The checksum stored in an image, if the image is long enough. -/
def storedChecksum? (image : Bytes) : Option UInt32 :=
  match Decoder.word.runAt image FileHeader.checksumOffset with
  | .ok (value, _) => some value
  | .error _ => none

end DexGraph
