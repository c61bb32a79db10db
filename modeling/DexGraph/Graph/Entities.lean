import DexGraph.Bytes.Basic
import DexGraph.Format.AccessFlags
import DexGraph.Graph.Value

/-!
# The entities of a graph

One structure for the entities of each section. An entity refers to others by slot, so that it
says nothing about where any of them lies in an image. `Section.Content` gives the structure that
belongs to a section.
-/

namespace DexGraph

/-! ## Strings, types and members -/

/-- The text of a string: its modified UTF-8 and the number of UTF-16 units it states. -/
structure StringData where
  utf16Length : UInt32
  bytes : Bytes
  deriving DecidableEq, Repr

/-- An entry of the string table. -/
structure StringId where
  data : Ref .stringData
  deriving DecidableEq, Repr

/-- An entry of the type table. -/
structure TypeId where
  descriptor : Ref .stringId
  deriving DecidableEq, Repr

/-- A list of types: the parameters of a prototype or the interfaces of a class. -/
structure TypeList where
  types : Array (Ref .typeId)
  deriving DecidableEq, Repr

/-- An entry of the prototype table. -/
structure ProtoId where
  shorty : Ref .stringId
  returnType : Ref .typeId
  parameters : Option (Ref .typeList)
  deriving DecidableEq, Repr

/-- An entry of the field table. -/
structure FieldId where
  owner : Ref .typeId
  type : Ref .typeId
  name : Ref .stringId
  deriving DecidableEq, Repr

/-- An entry of the method table. -/
structure MethodId where
  owner : Ref .typeId
  proto : Ref .protoId
  name : Ref .stringId
  deriving DecidableEq, Repr

/-! ## Constants and handles -/

/-- An array of constants. -/
structure EncodedArray where
  values : List Value

/-- An entry of the table of call sites. -/
structure CallSiteId where
  array : Ref .encodedArray
  deriving DecidableEq, Repr

/-- What a method handle reaches. -/
inductive HandleTarget
  | field (r : Ref .fieldId)
  | method (r : Ref .methodId)
  deriving DecidableEq, Repr

namespace HandleTarget

/-- The index of the target in its table. -/
def index : HandleTarget → UInt32
  | field r => r.slot
  | method r => r.slot

end HandleTarget

/-- An entry of the table of method handles. -/
structure MethodHandle where
  kind : MethodHandleKind
  target : HandleTarget
  deriving DecidableEq, Repr

/-! ## Annotations -/

/-- An annotation with its visibility. -/
structure AnnotationItem where
  visibility : Visibility
  body : Annotation

/-- The annotations of one class, field, method or parameter. -/
structure AnnotationSet where
  items : Array (Ref .annotationItem)
  deriving DecidableEq, Repr

/-- The annotation sets of the parameters of a method; a parameter may have none. -/
structure AnnotationSetRefList where
  items : Array (Option (Ref .annotationSet))
  deriving DecidableEq, Repr

/-- The annotations of a member in a directory. -/
structure MemberAnnotations (member notes : Section) where
  owner : Ref member
  annotations : Option (Ref notes)
  deriving DecidableEq, Repr

/-- All annotations of a class and its members. -/
structure AnnotationsDirectory where
  classAnnotations : Option (Ref .annotationSet)
  fields : Array (MemberAnnotations .fieldId .annotationSet)
  methods : Array (MemberAnnotations .methodId .annotationSet)
  parameters : Array (MemberAnnotations .methodId .annotationSetRefList)
  deriving DecidableEq, Repr

/-! ## Code -/

/-- A debug-info stream, which is kept as it is. -/
structure DebugInfo where
  bytes : Bytes
  deriving DecidableEq, Repr

/-- Where a handler takes the exceptions of a type; without a type, those of every type. -/
structure CatchClause where
  type : Option (Ref .typeId)
  address : UInt32
  deriving DecidableEq, Repr

/-- A catch handler with its position in the handler list of its body. -/
structure CatchHandler where
  catchesAll : Bool
  listOffset : UInt16
  clauses : Array CatchClause
  deriving DecidableEq, Repr

namespace CatchHandler

/-- The size that stands before the clauses of a handler: the number of typed clauses, not above
zero if the handler catches everything. -/
def statedSize (h : CatchHandler) : Int32 :=
  if h.catchesAll then -(Int32.ofNat (h.clauses.size - 1)) else Int32.ofNat h.clauses.size

end CatchHandler

/-- A range of instructions and the handler of their exceptions, which is a position among the
handlers of the body. -/
structure TryRange where
  start : UInt32
  count : UInt16
  handler : Nat
  deriving DecidableEq, Repr

/-- The body of a method. -/
structure CodeItem where
  registers : UInt16
  ins : UInt16
  outs : UInt16
  debugInfo : Option (Ref .debugInfo)
  instructions : Array UInt16
  tries : Array TryRange
  handlers : Array CatchHandler
  deriving DecidableEq, Repr

namespace CodeItem

/-- The handler of a range of instructions. -/
def handlerOf? (code : CodeItem) (range : TryRange) : Option CatchHandler :=
  code.handlers[range.handler]?

end CodeItem

/-! ## Classes -/

/-- A field that a class declares. -/
structure FieldItem where
  accessFlags : AccessFlags
  field : Ref .fieldId
  classData : Option (Ref .classData)
  deriving DecidableEq, Repr

/-- A method that a class declares. -/
structure MethodItem where
  accessFlags : AccessFlags
  method : Ref .methodId
  code : Option (Ref .codeItem)
  classData : Option (Ref .classData)
  deriving DecidableEq, Repr

namespace MethodItem

/-- Whether the body of the method lies outside the image. -/
def isNative (m : MethodItem) : Bool :=
  m.accessFlags.contains .native

/-- The body that an image holds for the method: a native method has none. -/
def body? (m : MethodItem) : Option (Ref .codeItem) :=
  if m.isNative then none else m.code

end MethodItem

/-- The two lists of methods of a class. -/
inductive MethodKind
  | direct
  | virtual
  deriving DecidableEq, Repr

namespace MethodKind

/-- The name of a kind. -/
def name : MethodKind → String
  | direct => "Direct"
  | virtual => "Virtual"

end MethodKind

/-- The members that a class declares. -/
structure ClassData where
  classDef : Option (Ref .classDef)
  staticFields : Array FieldItem
  instanceFields : Array FieldItem
  directMethods : Array MethodItem
  virtualMethods : Array MethodItem
  deriving DecidableEq, Repr

namespace ClassData

/-- The methods of one kind. -/
def methods (c : ClassData) : MethodKind → Array MethodItem
  | .direct => c.directMethods
  | .virtual => c.virtualMethods

/-- All fields, the static ones first. -/
def allFields (c : ClassData) : Array FieldItem :=
  c.staticFields ++ c.instanceFields

/-- All methods, the direct ones first. -/
def allMethods (c : ClassData) : Array MethodItem :=
  c.directMethods ++ c.virtualMethods

/-- The number of members. -/
def memberCount (c : ClassData) : Nat :=
  c.staticFields.size + c.instanceFields.size + c.directMethods.size + c.virtualMethods.size

/-- Notes in every member the class data that holds it. -/
def attach (c : ClassData) (owner : Ref .classData) : ClassData :=
  { c with
    staticFields := c.staticFields.map fun f => { f with classData := some owner }
    instanceFields := c.instanceFields.map fun f => { f with classData := some owner }
    directMethods := c.directMethods.map fun m => { m with classData := some owner }
    virtualMethods := c.virtualMethods.map fun m => { m with classData := some owner } }

/-- Notes the class that the members belong to, unless one has been noted before. -/
def belongTo (c : ClassData) (owner : Ref .classDef) : ClassData :=
  { c with classDef := c.classDef <|> some owner }

end ClassData

/-- An entry of the class table. -/
structure ClassDef where
  type : Ref .typeId
  accessFlags : AccessFlags
  superclass : Option (Ref .typeId)
  interfaces : Option (Ref .typeList)
  sourceFile : Option (Ref .stringId)
  annotations : Option (Ref .annotationsDirectory)
  classData : Option (Ref .classData)
  staticValues : Option (Ref .encodedArray)
  deriving DecidableEq, Repr

/-- The hidden-API flags: for every class the flags of its members, if it has any. -/
structure HiddenApi where
  flags : Array (Option (Array UInt32))
  deriving DecidableEq, Repr

/-! ## The contents of the sections -/

/-- What an entity of a section holds. -/
abbrev Section.Content : Section → Type
  | .stringData => StringData
  | .stringId => StringId
  | .typeId => TypeId
  | .typeList => TypeList
  | .protoId => ProtoId
  | .fieldId => FieldId
  | .methodId => MethodId
  | .classDef => ClassDef
  | .callSiteId => CallSiteId
  | .methodHandle => MethodHandle
  | .encodedArray => EncodedArray
  | .annotationItem => AnnotationItem
  | .annotationSet => AnnotationSet
  | .annotationSetRefList => AnnotationSetRefList
  | .annotationsDirectory => AnnotationsDirectory
  | .debugInfo => DebugInfo
  | .codeItem => CodeItem
  | .classData => ClassData

end DexGraph
