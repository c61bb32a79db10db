import DexGraph.Format.Tags
import DexGraph.Section
import DexGraph.Text.Units

/-!
# What can go wrong

`Error` lists the reasons for which an image is refused or a graph cannot be written. A
`Defect` is a contradiction inside an image or a graph; the other errors concern the image as a
whole, a place that has not been assigned, or the output. `Error.message` gives the wording.
-/

namespace DexGraph

/-- The lower-case hexadecimal digits of a number, at least `width` of them. -/
def hexDigits (n : Nat) (width : Nat) : String :=
  let digits := Nat.toDigits 16 n
  String.ofList (List.replicate (width - digits.length) '0' ++ digits)

/-- A number in hexadecimal, as messages show offsets and codes. -/
def hexText (n : Nat) : String :=
  "0x" ++ hexDigits n 1

/-- A contradiction inside an image or a graph. -/
inductive Defect
  | unterminatedUnsigned (position : Nat)
  | unterminatedSigned (position : Nat)
  | endianTag (tag : UInt32)
  | headerSize (size : UInt32)
  | fileSize (claimed : UInt32) (actual : Nat)
  | mapListCount (offset : UInt32) (count available : Nat)
  | exceedsWord
  | exceedsHalfWord
  | visibility (offset : UInt32) (code : UInt8)
  | valueTag (code : UInt8) (position : Nat)
  | valueWidth (tag : ValueTag) (position width : Nat)
  | memberIndexOverflow (previous delta : UInt32)
  | methodHandleKind (index : UInt32) (code : UInt16)
  | callSiteWithoutArray (index : UInt32)
  | mapEntry (kind : MapItemType) (size offset expectedSize expectedOffset : UInt32)
  | rowOutOfOrder (table : Section) (index : UInt32) (expected : Nat)
  | hiddenapiFlagCount (classIndex : UInt32) (members flags : Nat)
  | missingHandler (start : UInt32) (handler : Nat)
  | handlerOverlapsCount (listOffset : UInt16)
  | membersOutOfOrder (index previous : UInt32)
  deriving DecidableEq, Repr

namespace Defect

/-- The wording of a defect. -/
def message : Defect → String
  | unterminatedUnsigned position => s!"Unterminated uleb128 at offset {position}"
  | unterminatedSigned position => s!"Unterminated sleb128 at offset {position}"
  | endianTag tag => "Invalid endian tag 0x" ++ hexDigits tag.toNat 8
  | headerSize size => "Invalid header size " ++ hexText size.toNat
  | fileSize claimed actual =>
    "Header file size " ++ hexText claimed.toNat ++ " does not fit the " ++ hexText actual ++
      "-byte image"
  | mapListCount offset count available =>
    "Map list at " ++ hexText offset.toNat ++
      s!" claims {count} entries, only {available} fit"
  | exceedsWord => "DEX serialization value \x7bvalue\x7d exceeds u32::MAX"
  | exceedsHalfWord => "DEX serialization value \x7bvalue\x7d exceeds u16::MAX"
  | visibility offset code =>
    "Annotation at " ++ hexText offset.toNat ++ s!" has unknown visibility {code}"
  | valueTag code position =>
    "Unknown encoded value type 0x" ++ hexDigits code.toNat 2 ++ " at " ++ hexText position
  | valueWidth tag position width =>
    "Encoded " ++ tag.name ++ " at " ++ hexText position ++ s!" claims {width} bytes"
  | memberIndexOverflow previous delta => s!"Member index overflows: {previous} + {delta}"
  | methodHandleKind index code =>
    s!"Method handle {index} has unknown kind " ++ hexText code.toNat
  | callSiteWithoutArray index => s!"Call site {index} has no encoded array"
  | mapEntry kind size offset expectedSize expectedOffset =>
    "Map entry " ++ kind.name ++ s!" (size {size}, offset " ++ hexText offset.toNat ++
      s!") disagrees with header (size {expectedSize}, offset " ++ hexText expectedOffset.toNat ++ ")"
  | rowOutOfOrder table index expected =>
    table.kind ++ s!" index {index} added out of order (expected {expected})"
  | hiddenapiFlagCount classIndex members flags =>
    s!"Class {classIndex} has {members} members, got {flags} hidden-API flags"
  | missingHandler start handler =>
    "Try item at " ++ hexText start.toNat ++ s!" points at missing handler {handler}"
  | handlerOverlapsCount listOffset =>
    s!"Catch handler list offset {listOffset} overlaps the handler count"
  | membersOutOfOrder index previous =>
    s!"Class data members out of order: index {index} after {previous}"

end Defect

/-- What lacks an offset: an entity, the hidden-API flags, or a whole section. -/
inductive Unplaced
  | entity (owner : Section)
  | hiddenapi
  | range (kind : MapItemType)
  deriving DecidableEq, Repr

namespace Unplaced

/-- The name in messages of what lacks an offset. -/
def name : Unplaced → String
  | entity owner => owner.kind
  | hiddenapi => "hiddenapi_class_data"
  | range kind => kind.name

end Unplaced

/-- Why an image could not be put out. -/
inductive OutputFault
  | pastFileSize (stop : Nat) (fileSize : UInt32)
  | pastEnd (offset length fileSize : Nat)
  | cannotCreate
  deriving DecidableEq, Repr

namespace OutputFault

/-- The wording of a fault. -/
def message : OutputFault → String
  | pastFileSize stop fileSize =>
    "Preserved layout ends at " ++ hexText stop ++ ", past the recorded file size " ++
      hexText fileSize.toNat
  | pastEnd offset length fileSize =>
    s!"Write would exceed file size: offset={offset}, len={length}, file_size={fileSize}"
  | cannotCreate => "Failed to create the file"

end OutputFault

/-- The reasons for which an operation fails. -/
inductive Error
  | malformed (defect : Defect)
  | outOfBounds
  | notSupported
  | empty
  | fileNotFound
  | invalidMagic
  | unsupportedVersion (version : List UInt8)
  | unassignedOffset (subject : Unplaced)
  | duplicateItem (owner : Section) (offset : UInt32)
  | missingReference (table : Section) (index : UInt32) (entries : Nat)
  | writeFailed (fault : OutputFault)
  deriving DecidableEq, Repr

namespace Error

/-- The wording of an error. -/
def message : Error → String
  | malformed defect => defect.message
  | outOfBounds => "Out of Bound read would have occurred!"
  | notSupported => "This file type is not supported"
  | empty => "Provided input was empty"
  | fileNotFound => "NotFound"
  | invalidMagic => "Invalid DEX magic"
  | unsupportedVersion version =>
    "Unsupported DEX version - " ++ Text.stringOfUtf8 version
  | unassignedOffset subject =>
    "Offset of " ++ subject.name ++ " item was accessed before it was assigned"
  | duplicateItem owner offset =>
    "Duplicate " ++ owner.kind ++ " item registered at offset " ++ hexText offset.toNat
  | missingReference table index entries =>
    "Missing reference - " ++ table.kind ++ s!" index {index} out of range ({entries} entries)"
  | writeFailed fault => "Write failed - " ++ fault.message

end Error

/-- A number as a 32-bit word; the formats have no room for larger ones. -/
def toWord (n : Nat) : Except Error UInt32 :=
  if n < 0x100000000 then .ok n.toUInt32 else .error (.malformed .exceedsWord)

/-- A number as a 16-bit word; the formats have no room for larger ones. -/
def toHalfWord (n : Nat) : Except Error UInt16 :=
  if n < 0x10000 then .ok n.toUInt16 else .error (.malformed .exceedsHalfWord)

/-- The least multiple of `alignment` that is not below `n`. -/
def alignUp (n alignment : Nat) : Nat :=
  (n + alignment - 1) / alignment * alignment

end DexGraph
