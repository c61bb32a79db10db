import DexGraph.Graph.Basic
import DexGraph.Text.ModifiedUtf8

/-!
# Names

The texts by which a reader knows the entities of a graph: strings, type descriptors, the
signatures of fields and methods, and the package of a class. A reference that names nothing has
the empty text.
-/

namespace DexGraph

namespace StringData

/-- The text as an entity: its modified UTF-8 and the number of its UTF-16 units. -/
def ofText (text : String) : StringData where
  utf16Length := (Text.unitsOfString text).length.toUInt32
  bytes := (Text.ModifiedUtf8.encode text).toArray

/-- The text of an entity. -/
def text (data : StringData) : String :=
  Text.ModifiedUtf8.toText data.bytes.toList

end StringData

namespace Graph

/-- The text of an entry of the string table. -/
def string (g : Graph) (r : Ref .stringId) : String :=
  match g.get? r with
  | some entry => ((g.get? entry.data).map StringData.text).getD ""
  | none => ""

/-- The descriptor of a type. -/
def typeDescriptor (g : Graph) (r : Ref .typeId) : String :=
  match g.get? r with
  | some entry => g.string entry.descriptor
  | none => ""

/-- The descriptor of the type that a class defines. -/
def className (g : Graph) (c : ClassDef) : String :=
  g.typeDescriptor c.type

/-- The signature of a field: its class, its name and its type. -/
def fieldSignature (g : Graph) (f : FieldId) : String :=
  g.typeDescriptor f.owner ++ "->" ++ g.string f.name ++ ":" ++ g.typeDescriptor f.type

/-- The descriptors of the parameters of a prototype, one behind the other. -/
def parameterText (g : Graph) (p : ProtoId) : String :=
  match p.parameters.bind g.get? with
  | some list => String.join (list.types.toList.map g.typeDescriptor)
  | none => ""

/-- The signature of a method: its class, its name, its parameters and what it returns. -/
def methodSignature (g : Graph) (m : MethodId) : String :=
  let (parameters, returnType) := match g.get? m.proto with
    | some p => (g.parameterText p, g.typeDescriptor p.returnType)
    | none => ("", "")
  g.typeDescriptor m.owner ++ "->" ++ g.string m.name ++ "(" ++ parameters ++ ")" ++ returnType

/-- The name in the descriptor of a class: what stands between the letter `L` and the last
semicolon, or the whole text if it does not have that form. -/
def nameInDescriptor (descriptor : List Char) : List Char :=
  match descriptor with
  | 'L' :: rest => if rest.getLast? == some ';' then rest.dropLast else descriptor
  | _ => descriptor

/-- The package of a name: the part before the last slash, with dots for slashes. -/
def packageOfName (name : List Char) : List Char :=
  if '/' ∈ name then
    let behind := name.reverse.takeWhile (· ≠ '/')
    (name.take (name.length - behind.length - 1)).map fun c => if c = '/' then '.' else c
  else []

/-- The package of a class. -/
def package (g : Graph) (c : ClassDef) : String :=
  String.ofList (packageOfName (nameInDescriptor (g.className c).toList))

end Graph

end DexGraph
