import DexGraph.Bytes.Leb128
import DexGraph.Graph.Basic

/-!
# Encoded values

A value starts with a byte that holds its type in the low five bits and an argument above them.
For most types the argument is the width of the payload less one; a payload may be any width up
to that of the type, and the missing bytes are those that carry no information: copies of the
sign, zeros above an index, or zeros below a floating-point number. Values are written with the
narrowest payload.
-/

namespace DexGraph

namespace Value

/-! ## Widths -/

/-- Whether a number has a two's complement in `width` bytes. -/
def fitsSigned (v : Int) (width : Nat) : Bool :=
  -LittleEndian.capacity width ≤ 2 * v && 2 * v < LittleEndian.capacity width

/-- The least of the widths below eight that passes a test, or else eight. -/
def leastWidth (fits : Nat → Bool) : Nat :=
  ([1, 2, 3, 4, 5, 6, 7].find? fits).getD 8

/-- The narrowest two's complement of a number, the lowest byte first. -/
def signedPayload (v : Int) : List UInt8 :=
  LittleEndian.encodeSigned (leastWidth (fitsSigned v)) v

/-- The narrowest form of a number that is not negative, the lowest byte first. -/
def unsignedPayload (n : Nat) : List UInt8 :=
  LittleEndian.encode (leastWidth fun width => n < LittleEndian.capacity width) n

/-- Drops zeros at the low end, but not the last byte. -/
def dropLowZeros : List UInt8 → List UInt8
  | 0 :: b :: rest => dropLowZeros (b :: rest)
  | bytes => bytes

/-- The narrowest form of the bits of a floating-point number of the given width. -/
def rightFilledPayload (width bits : Nat) : List UInt8 :=
  dropLowZeros (LittleEndian.encode width bits)

/-! ## Writing -/

/-- The first byte of a value. -/
def header (tag : ValueTag) (argument : Nat) : UInt8 :=
  (argument.toUInt8 <<< 5) ||| tag.code

/-- A value with a payload of stated width. -/
def sized (tag : ValueTag) (payload : List UInt8) : List UInt8 :=
  header tag (payload.length - 1) :: payload

/-- The size of a list as it stands before the elements. -/
def encodeCount (n : Nat) : Except Error (List UInt8) := do
  return (Leb128.encodeUnsigned (← toWord n)).toList

/-- The index of an entry as it stands among LEB128 numbers. -/
def encodeIndex {s : Section} (r : Ref s) : List UInt8 :=
  (Leb128.encodeUnsigned r.slot).toList

mutual

/-- The bytes of a value. -/
def encode : Value → Except Error (List UInt8)
  | .byte v => .ok (sized .byte (signedPayload v.toInt))
  | .short v => .ok (sized .short (signedPayload v.toInt))
  | .char v => .ok (sized .char (unsignedPayload v.toNat))
  | .int v => .ok (sized .int (signedPayload v.toInt))
  | .long v => .ok (sized .long (signedPayload v.toInt))
  | .float bits => .ok (sized .float (rightFilledPayload 4 bits.toNat))
  | .double bits => .ok (sized .double (rightFilledPayload 8 bits.toNat))
  | .methodType r => .ok (sized .methodType (unsignedPayload r.pos))
  | .methodHandle r => .ok (sized .methodHandle (unsignedPayload r.pos))
  | .string r => .ok (sized .string (unsignedPayload r.pos))
  | .type r => .ok (sized .type (unsignedPayload r.pos))
  | .field r => .ok (sized .field (unsignedPayload r.pos))
  | .method r => .ok (sized .method (unsignedPayload r.pos))
  | .enum r => .ok (sized .enum (unsignedPayload r.pos))
  | .array values => do
    let count ← encodeCount values.length
    let body ← encodeEach values
    return header .array 0 :: (count ++ body)
  | .annotated owner elements => do
    let count ← encodeCount elements.length
    let body ← encodeElements elements
    return header .annotated 0 :: (encodeIndex owner ++ count ++ body)
  | .null => .ok [header .null 0]
  | .boolean v => .ok [header .boolean v.toNat]

/-- The bytes of values one behind the other. -/
def encodeEach : List Value → Except Error (List UInt8)
  | [] => .ok []
  | v :: rest => do
    let head ← v.encode
    let tail ← encodeEach rest
    return head ++ tail

/-- The bytes of the elements of an annotation one behind the other. -/
def encodeElements : List (Ref .stringId × Value) → Except Error (List UInt8)
  | [] => .ok []
  | (name, v) :: rest => do
    let head ← v.encode
    let tail ← encodeElements rest
    return encodeIndex name ++ head ++ tail

end

/-- The bytes of an array of values. -/
def encodeArray (values : List Value) : Except Error (List UInt8) := do
  return (← encodeCount values.length) ++ (← encodeEach values)

/-! ## Reading -/

/-- Reads the index of an entry of a table, which has to exist. -/
def decodeIndex (g : Graph) (s : Section) : Decoder (Ref s) := do
  let index ← Decoder.unsignedLeb
  Decoder.ofExcept (g.resolve s index)

/-- The payload of a value as the index of an entry of a table, which has to exist. -/
def decodeRef (g : Graph) (s : Section) (width : Nat) : Decoder (Ref s) := do
  let index ← Decoder.number width
  Decoder.ofExcept (g.resolve s index.toUInt32)

/-- Reads a counted list of values. -/
def decodeArrayWith (value : Decoder Value) : Decoder (List Value) := do
  let count ← Decoder.unsignedLeb
  return (← gather count.toNat value).toList

/-- Reads the type and the elements of an annotation. -/
def decodeAnnotationWith (g : Graph) (value : Decoder Value) : Decoder Annotation := do
  let owner ← decodeIndex g .typeId
  let count ← Decoder.unsignedLeb
  let elements ← gather count.toNat do
    let name ← decodeIndex g .stringId
    return (name, ← value)
  return ⟨owner, elements.toList⟩

/-- Reads what follows the first byte of a value. The argument of that byte is the width of the
payload less one, and `value` reads the values inside. -/
def decodePayload (g : Graph) (value : Decoder Value) (argument : UInt8) :
    ValueTag → Decoder Value :=
  let width := argument.toNat + 1
  fun
  | .byte => return .byte (Int8.ofInt (← Decoder.signedNumber width))
  | .short => return .short (Int16.ofInt (← Decoder.signedNumber width))
  | .char => return .char (← Decoder.number width).toUInt16
  | .int => return .int (Int32.ofInt (← Decoder.signedNumber width))
  | .long => return .long (Int64.ofInt (← Decoder.signedNumber width))
  | .float =>
    return .float ((← Decoder.number width) * LittleEndian.capacity (4 - width)).toUInt32
  | .double =>
    return .double ((← Decoder.number width) * LittleEndian.capacity (8 - width)).toUInt64
  | .methodType => return .methodType (← decodeRef g .protoId width)
  | .methodHandle => return .methodHandle (← decodeRef g .methodHandle width)
  | .string => return .string (← decodeRef g .stringId width)
  | .type => return .type (← decodeRef g .typeId width)
  | .field => return .field (← decodeRef g .fieldId width)
  | .method => return .method (← decodeRef g .methodId width)
  | .enum => return .enum (← decodeRef g .fieldId width)
  | .array => return .array (← decodeArrayWith value)
  | .annotated => do
    let a ← decodeAnnotationWith g value
    return .annotated a.type a.elements
  | .null => return .null
  | .boolean => return .boolean (argument != 0)

/-- Reads a value. Each value takes a byte at least, so values are nested no deeper than there
are bytes left; `depth` bounds the nesting. -/
def decodeWithin (g : Graph) : (depth : Nat) → Decoder Value
  | 0 => Decoder.fail .outOfBounds
  | depth + 1 => do
    let start ← Decoder.position
    let first ← Decoder.byte
    let code := first &&& 0x1F
    let argument := first >>> 5
    match ValueTag.ofCode? code with
    | none => Decoder.fail (.malformed (.valueTag code start))
    | some tag =>
      if tag.maxWidth?.any (· < argument.toNat + 1) then
        Decoder.fail (.malformed (.valueWidth tag start (argument.toNat + 1)))
      decodePayload g (decodeWithin g depth) argument tag

/-- Reads a value. -/
def decode (g : Graph) : Decoder Value := do
  decodeWithin g (← Decoder.remaining)

/-- Reads a counted list of values. -/
def decodeArray (g : Graph) : Decoder (List Value) := do
  decodeArrayWith (decodeWithin g (← Decoder.remaining))

end Value

namespace Annotation

/-- The bytes of an annotation. -/
def encode (a : Annotation) : Except Error (List UInt8) := do
  let count ← Value.encodeCount a.elements.length
  return Value.encodeIndex a.type ++ count ++ (← Value.encodeElements a.elements)

/-- Reads an annotation. -/
def decode (g : Graph) : Decoder Annotation := do
  Value.decodeAnnotationWith g (Value.decodeWithin g (← Decoder.remaining))

end Annotation

end DexGraph
