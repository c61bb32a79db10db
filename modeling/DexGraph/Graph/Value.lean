import DexGraph.Format.Tags
import DexGraph.Section

/-!
# Encoded values

Constants and annotations are nested values: numbers, references into the tables, arrays, and
annotations, which give values to named elements. Floating-point numbers are kept as bits, so
that no payload of a NaN is lost.
-/

namespace DexGraph

/-- A constant of a static field, a call site or an annotation. -/
inductive Value
  | byte (v : Int8)
  | short (v : Int16)
  | char (v : UInt16)
  | int (v : Int32)
  | long (v : Int64)
  | float (bits : UInt32)
  | double (bits : UInt64)
  | methodType (r : Ref .protoId)
  | methodHandle (r : Ref .methodHandle)
  | string (r : Ref .stringId)
  | type (r : Ref .typeId)
  | field (r : Ref .fieldId)
  | method (r : Ref .methodId)
  | enum (r : Ref .fieldId)
  | array (values : List Value)
  | annotated (type : Ref .typeId) (elements : List (Ref .stringId × Value))
  | null
  | boolean (v : Bool)

instance : Inhabited Value := ⟨.null⟩

namespace Value

/-- The type of a value. -/
def tag : Value → ValueTag
  | byte _ => .byte
  | short _ => .short
  | char _ => .char
  | int _ => .int
  | long _ => .long
  | float _ => .float
  | double _ => .double
  | methodType _ => .methodType
  | methodHandle _ => .methodHandle
  | string _ => .string
  | type _ => .type
  | field _ => .field
  | method _ => .method
  | enum _ => .enum
  | array _ => .array
  | annotated _ _ => .annotated
  | null => .null
  | boolean _ => .boolean

end Value

/-- An annotation: its type and the values of its elements. -/
structure Annotation where
  type : Ref .typeId
  elements : List (Ref .stringId × Value)
  deriving Inhabited

end DexGraph
