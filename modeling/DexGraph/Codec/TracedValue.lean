import DexGraph.Codec.Value

/-!
# Values read with a trail

`Value.decode` bounds the nesting of values by the number of bytes that are left, and says of values
that are nested deeper that they go past the end. Here values are read as they are nested. A
definition has to cut the recursion off somewhere, but what is cut off has no outcome, not even an
error: it has not ended. Reading ends if it has an outcome wherever the recursion is cut off from
some depth on.

On the way a trail is kept of the positions at which something is read, so that it can be said where
the cursor has been and how often something was read.
-/

namespace DexGraph

/-- A position in a byte string, and the positions at which something was to be read, the last of
them first. -/
structure Trail where
  position : Nat
  visited : List Nat := []

/-- A computation that reads a byte string as it goes. It ends on some trail with a value or with an
error; one that has not ended gives `none`. -/
abbrev Traced (α : Type) : Type :=
  ExceptT Error (StateT Trail Option) α

namespace Traced

variable {α : Type}

/-- Sets out at a position. -/
def runFrom (m : Traced α) (p : Nat) : Option (Except Error α × Trail) :=
  m.run.run { position := p }

/-- Has not ended. -/
def pending : Traced α :=
  ExceptT.mk fun _ => none

/-- Reads something at the current position. -/
def visit (data : Bytes) (d : Decoder α) : Traced α :=
  ExceptT.mk fun t =>
    let (outcome, stop) := d.attempt data t.position
    some (outcome, ⟨stop, t.position :: t.visited⟩)

/-- Takes an outcome for which nothing is read. -/
def ofOutcome (outcome : Except Error α) : Traced α :=
  ExceptT.mk fun t => some (outcome, t)

/-- The current position. -/
def position : Traced Nat := do
  return (← get).position

end Traced

namespace Value

open Traced

/-- Reads the index of an entry of a table, which has to exist. -/
def readIndex (g : Graph) (data : Bytes) (s : Section) : Traced (Ref s) := do
  let index ← visit data Decoder.unsignedLeb
  ofOutcome (g.resolve s index)

/-- Reads the payload of a value as the index of an entry of a table, which has to exist. -/
def readRef (g : Graph) (data : Bytes) (s : Section) (width : Nat) : Traced (Ref s) := do
  let index ← visit data (Decoder.number width)
  ofOutcome (g.resolve s index.toUInt32)

/-- Reads a counted list of values. -/
def readArrayWith (data : Bytes) (value : Traced Value) : Traced (List Value) := do
  let count ← visit data Decoder.unsignedLeb
  return (← gather count.toNat value).toList

/-- Reads an element of an annotation. -/
def readElement (g : Graph) (data : Bytes) (value : Traced Value) :
    Traced (Ref .stringId × Value) := do
  let name ← readIndex g data .stringId
  return (name, ← value)

/-- Reads the type and the elements of an annotation. -/
def readAnnotationWith (g : Graph) (data : Bytes) (value : Traced Value) : Traced Annotation := do
  let owner ← readIndex g data .typeId
  let count ← visit data Decoder.unsignedLeb
  let elements ← gather count.toNat (readElement g data value)
  return ⟨owner, elements.toList⟩

/-- Reads what follows the first byte of a value. The argument of that byte is the width of the
payload less one, and `value` reads the values inside. -/
def readPayload (g : Graph) (data : Bytes) (value : Traced Value) (argument : UInt8) :
    ValueTag → Traced Value :=
  let width := argument.toNat + 1
  fun
  | .byte => return .byte (Int8.ofInt (← visit data (Decoder.signedNumber width)))
  | .short => return .short (Int16.ofInt (← visit data (Decoder.signedNumber width)))
  | .char => return .char (← visit data (Decoder.number width)).toUInt16
  | .int => return .int (Int32.ofInt (← visit data (Decoder.signedNumber width)))
  | .long => return .long (Int64.ofInt (← visit data (Decoder.signedNumber width)))
  | .float => do
    let n ← visit data (Decoder.number width)
    return .float (n * LittleEndian.capacity (4 - width)).toUInt32
  | .double => do
    let n ← visit data (Decoder.number width)
    return .double (n * LittleEndian.capacity (8 - width)).toUInt64
  | .methodType => return .methodType (← readRef g data .protoId width)
  | .methodHandle => return .methodHandle (← readRef g data .methodHandle width)
  | .string => return .string (← readRef g data .stringId width)
  | .type => return .type (← readRef g data .typeId width)
  | .field => return .field (← readRef g data .fieldId width)
  | .method => return .method (← readRef g data .methodId width)
  | .enum => return .enum (← readRef g data .fieldId width)
  | .array => return .array (← readArrayWith data value)
  | .annotated => do
    let a ← readAnnotationWith g data value
    return .annotated a.type a.elements
  | .null => return .null
  | .boolean => return .boolean (argument != 0)

/-- Reads a value. The recursion is cut off `depth` values deep. -/
def readValue (g : Graph) (data : Bytes) : (depth : Nat) → Traced Value
  | 0 => pending
  | depth + 1 => do
    let start ← position
    let first ← visit data Decoder.byte
    let code := first &&& 0x1F
    let argument := first >>> 5
    match ValueTag.ofCode? code with
    | none => throw (.malformed (.valueTag code start))
    | some tag =>
      if tag.maxWidth?.any (· < argument.toNat + 1) then
        throw (.malformed (.valueWidth tag start (argument.toNat + 1)))
      else readPayload g data (readValue g data depth) argument tag

/-- Reads a counted list of values, with the recursion cut off `depth` values deep. -/
def readArray (g : Graph) (data : Bytes) (depth : Nat) : Traced (List Value) :=
  readArrayWith data (readValue g data depth)

/-- Reads the type and the elements of an annotation, with the recursion cut off `depth` values
deep. -/
def readAnnotation (g : Graph) (data : Bytes) (depth : Nat) : Traced Annotation :=
  readAnnotationWith g data (readValue g data depth)

end Value

end DexGraph
