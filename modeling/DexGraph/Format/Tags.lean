/-!
# Small tags

Three enumerations that an image stores as numbers: the kind of a method handle, the visibility
of an annotation and the type of an encoded value. Each is found again under its code.
-/

namespace DexGraph

/-- What a method handle does with its target. -/
inductive MethodHandleKind
  | staticPut
  | staticGet
  | instancePut
  | instanceGet
  | invokeStatic
  | invokeInstance
  | invokeConstructor
  | invokeDirect
  | invokeInterface
  deriving DecidableEq, Repr

namespace MethodHandleKind

/-- All kinds, in the order of their codes. -/
def all : List MethodHandleKind :=
  [staticPut, staticGet, instancePut, instanceGet, invokeStatic, invokeInstance,
    invokeConstructor, invokeDirect, invokeInterface]

/-- The stored code of a kind. -/
def code : MethodHandleKind → UInt16
  | staticPut => 0
  | staticGet => 1
  | instancePut => 2
  | instanceGet => 3
  | invokeStatic => 4
  | invokeInstance => 5
  | invokeConstructor => 6
  | invokeDirect => 7
  | invokeInterface => 8

/-- The name of a kind. -/
def name : MethodHandleKind → String
  | staticPut => "StaticPut"
  | staticGet => "StaticGet"
  | instancePut => "InstancePut"
  | instanceGet => "InstanceGet"
  | invokeStatic => "InvokeStatic"
  | invokeInstance => "InvokeInstance"
  | invokeConstructor => "InvokeConstructor"
  | invokeDirect => "InvokeDirect"
  | invokeInterface => "InvokeInterface"

/-- The kind stored under a code, if the code is known. -/
def ofCode? (c : UInt16) : Option MethodHandleKind :=
  all.find? fun kind => kind.code == c

/-- Whether the target of a handle of this kind is a field; otherwise it is a method. -/
def accessesField : MethodHandleKind → Bool
  | staticPut | staticGet | instancePut | instanceGet => true
  | _ => false

theorem ofCode?_code (kind : MethodHandleKind) : ofCode? kind.code = some kind := by
  cases kind <;> decide

end MethodHandleKind

/-- Who sees an annotation. -/
inductive Visibility
  | build
  | runtime
  | system
  deriving DecidableEq, Repr

namespace Visibility

/-- All visibilities, in the order of their codes. -/
def all : List Visibility :=
  [build, runtime, system]

/-- The stored code of a visibility. -/
def code : Visibility → UInt8
  | build => 0
  | runtime => 1
  | system => 2

/-- The name of a visibility. -/
def name : Visibility → String
  | build => "Build"
  | runtime => "Runtime"
  | system => "System"

/-- The visibility stored under a code, if the code is known. -/
def ofCode? (c : UInt8) : Option Visibility :=
  all.find? fun visibility => visibility.code == c

theorem ofCode?_code (visibility : Visibility) : ofCode? visibility.code = some visibility := by
  cases visibility <;> decide

end Visibility

/-- The type of an encoded value. -/
inductive ValueTag
  | byte
  | short
  | char
  | int
  | long
  | float
  | double
  | methodType
  | methodHandle
  | string
  | type
  | field
  | method
  | enum
  | array
  | annotated
  | null
  | boolean
  deriving DecidableEq, Repr

namespace ValueTag

/-- All types, in the order of their codes. -/
def all : List ValueTag :=
  [byte, short, char, int, long, float, double, methodType, methodHandle, string, type, field,
    method, enum, array, annotated, null, boolean]

/-- The five bits under which a value of the type is stored. -/
def code : ValueTag → UInt8
  | byte => 0x00
  | short => 0x02
  | char => 0x03
  | int => 0x04
  | long => 0x06
  | float => 0x10
  | double => 0x11
  | methodType => 0x15
  | methodHandle => 0x16
  | string => 0x17
  | type => 0x18
  | field => 0x19
  | method => 0x1a
  | enum => 0x1b
  | array => 0x1c
  | annotated => 0x1d
  | null => 0x1e
  | boolean => 0x1f

/-- The name of a type. -/
def name : ValueTag → String
  | byte => "Byte"
  | short => "Short"
  | char => "Char"
  | int => "Int"
  | long => "Long"
  | float => "Float"
  | double => "Double"
  | methodType => "MethodType"
  | methodHandle => "MethodHandle"
  | string => "String"
  | type => "Type"
  | field => "Field"
  | method => "Method"
  | enum => "Enum"
  | array => "Array"
  | annotated => "Annotation"
  | null => "Null"
  | boolean => "Boolean"

/-- The type stored under a code, if the code is known. -/
def ofCode? (c : UInt8) : Option ValueTag :=
  all.find? fun tag => tag.code == c

/-- The widest payload of a value of the type in bytes; `none` for the types whose values have
no payload of a stated width. -/
def maxWidth? : ValueTag → Option Nat
  | byte => some 1
  | short | char => some 2
  | long | double => some 8
  | array | annotated | null | boolean => none
  | _ => some 4

theorem ofCode?_code (tag : ValueTag) : ofCode? tag.code = some tag := by
  cases tag <;> decide

end ValueTag

end DexGraph
