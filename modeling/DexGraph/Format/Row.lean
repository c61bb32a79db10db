import DexGraph.Bytes.Decoder

/-!
# Fixed-size rows

The tables of an image are arrays of rows. A row is stored field by field, without padding other
than its reserved fields, which are written as zeros and read as anything. The class `Row` holds
what the kinds of rows have in common.
-/

namespace DexGraph

/-- A record that is stored field by field in a fixed number of bytes. -/
class Row (α : Type) where
  /-- The size of a row in bytes. -/
  size : Nat
  /-- Reads the fields of a row. -/
  decode : Decoder α
  /-- The bytes of the fields in their order. -/
  fields : α → List Bytes

namespace Row

variable {α : Type} [Row α]

/-- The bytes of a row. -/
def encode (a : α) : Bytes :=
  (fields a).foldl (· ++ ·) #[]

/-- Reads the row of a given index of a table. -/
def decodeAt (data : Bytes) (table index : UInt32) : Except Error α := do
  let (a, _) ← (decode : Decoder α).runAt data (table.toNat + index.toNat * size α)
  return a

/-- A buffer into which fields have been stored, the position behind them, and why the next field
could not be stored, if that was so. -/
structure Stored where
  buffer : Bytes
  position : Nat
  failure : Option Error
  deriving DecidableEq, Repr

/-- Stores fields one after the other, up to the first that does not fit. -/
def storeFields (buffer : Bytes) (position : Nat) : List Bytes → Stored
  | [] => ⟨buffer, position, none⟩
  | field :: rest =>
    if position + field.size ≤ buffer.size then
      storeFields (buffer.overlay position field) (position + field.size) rest
    else ⟨buffer, position, some .outOfBounds⟩

/-- Stores a row, as far as its fields fit. -/
def store (buffer : Bytes) (position : Nat) (a : α) : Stored :=
  storeFields buffer position (fields a)

end Row

/-! ## The rows of the tables -/

/-- A row of the string table. -/
structure StringIdRow where
  dataOffset : UInt32
  deriving DecidableEq, Repr

instance : Row StringIdRow where
  size := 4
  decode := do
    return ⟨← Decoder.word⟩
  fields row := [.ofWord row.dataOffset]

/-- A row of the type table. -/
structure TypeIdRow where
  descriptor : UInt32
  deriving DecidableEq, Repr

instance : Row TypeIdRow where
  size := 4
  decode := do
    return ⟨← Decoder.word⟩
  fields row := [.ofWord row.descriptor]

/-- A row of the prototype table. -/
structure ProtoIdRow where
  shorty : UInt32
  returnType : UInt32
  parametersOffset : UInt32
  deriving DecidableEq, Repr

instance : Row ProtoIdRow where
  size := 12
  decode := do
    return ⟨← Decoder.word, ← Decoder.word, ← Decoder.word⟩
  fields row := [.ofWord row.shorty, .ofWord row.returnType, .ofWord row.parametersOffset]

/-- A row of the field table. -/
structure FieldIdRow where
  owner : UInt16
  type : UInt16
  name : UInt32
  deriving DecidableEq, Repr

instance : Row FieldIdRow where
  size := 8
  decode := do
    return ⟨← Decoder.halfWord, ← Decoder.halfWord, ← Decoder.word⟩
  fields row := [.ofHalfWord row.owner, .ofHalfWord row.type, .ofWord row.name]

/-- A row of the method table. -/
structure MethodIdRow where
  owner : UInt16
  proto : UInt16
  name : UInt32
  deriving DecidableEq, Repr

instance : Row MethodIdRow where
  size := 8
  decode := do
    return ⟨← Decoder.halfWord, ← Decoder.halfWord, ← Decoder.word⟩
  fields row := [.ofHalfWord row.owner, .ofHalfWord row.proto, .ofWord row.name]

/-- A row of the class table. -/
structure ClassDefRow where
  type : UInt32
  accessFlags : UInt32
  superclass : UInt32
  interfacesOffset : UInt32
  sourceFile : UInt32
  annotationsOffset : UInt32
  classDataOffset : UInt32
  staticValuesOffset : UInt32
  deriving DecidableEq, Repr

instance : Row ClassDefRow where
  size := 32
  decode := do
    return ⟨← Decoder.word, ← Decoder.word, ← Decoder.word, ← Decoder.word, ← Decoder.word,
      ← Decoder.word, ← Decoder.word, ← Decoder.word⟩
  fields row := [.ofWord row.type, .ofWord row.accessFlags, .ofWord row.superclass,
    .ofWord row.interfacesOffset, .ofWord row.sourceFile, .ofWord row.annotationsOffset,
    .ofWord row.classDataOffset, .ofWord row.staticValuesOffset]

/-- A row of the table of call sites. -/
structure CallSiteIdRow where
  arrayOffset : UInt32
  deriving DecidableEq, Repr

instance : Row CallSiteIdRow where
  size := 4
  decode := do
    return ⟨← Decoder.word⟩
  fields row := [.ofWord row.arrayOffset]

/-- A row of the table of method handles. Each of its two fields is followed by a reserved one. -/
structure MethodHandleRow where
  kind : UInt16
  target : UInt16
  deriving DecidableEq, Repr

instance : Row MethodHandleRow where
  size := 8
  decode := do
    let kind ← Decoder.halfWord
    let _ ← Decoder.halfWord
    let target ← Decoder.halfWord
    let _ ← Decoder.halfWord
    return ⟨kind, target⟩
  fields row := [.ofHalfWord row.kind, .ofHalfWord 0, .ofHalfWord row.target, .ofHalfWord 0]

end DexGraph
