import DexGraph.Graph.Basic
import DexGraph.Instruction.Walk
import Std.Data.TreeSet

/-!
# Cross references

The instructions of a method name strings, types, fields and methods by index. This file collects
for every registered method what its body names, and for every string, type, field and method the
methods that name it. A body counts up to the first instruction that cannot be decoded, and
indices that lie outside their tables are left out.
-/

namespace DexGraph

/-- The entries of four tables that a body names, by index. -/
structure Uses where
  strings : Std.TreeSet UInt32 := ∅
  types : Std.TreeSet UInt32 := ∅
  fields : Std.TreeSet UInt32 := ∅
  methods : Std.TreeSet UInt32 := ∅

namespace Uses

/-- Whether nothing is named. -/
def isEmpty (u : Uses) : Bool :=
  u.strings.isEmpty && u.types.isEmpty && u.fields.isEmpty && u.methods.isEmpty

/-- Adds an operand, if it is an index of one of the four tables and lies inside it. -/
def add (g : Graph) (u : Uses) (o : Operand) : Uses :=
  let inside (s : Section) := o.index.toNat < g.count s
  match o.kind with
  | .string => if inside .stringId then { u with strings := u.strings.insert o.index } else u
  | .type => if inside .typeId then { u with types := u.types.insert o.index } else u
  | .field => if inside .fieldId then { u with fields := u.fields.insert o.index } else u
  | .method => if inside .methodId then { u with methods := u.methods.insert o.index } else u
  | .proto | .callSite | .methodHandle => u

/-- What a body names. -/
def ofBody (g : Graph) (body : Array UInt16) : Uses :=
  (Walk.ofUnits body).instructions.foldl (fun u i => i.operands.foldl (add g) u) {}

end Uses

/-- The methods that name each entry of a table; entries that no method names are left out. -/
abbrev Users : Type :=
  Std.TreeMap UInt32 (Std.TreeSet UInt32)

namespace Users

/-- Notes that a method names each of the given entries. -/
def add (users : Users) (method : UInt32) (entries : Std.TreeSet UInt32) : Users :=
  entries.foldl (fun users i => users.insert i ((users.getD i ∅).insert method)) users

end Users

/-- What the registered methods name, and by which methods entries of tables are named. -/
structure CrossReferences where
  uses : Std.TreeMap UInt32 Uses := ∅
  stringUsers : Users := ∅
  typeUsers : Users := ∅
  fieldUsers : Users := ∅
  methodUsers : Users := ∅

namespace CrossReferences

/-- Forgets what the registered methods name, and by which methods entries of tables are named. -/
def clear (x : CrossReferences) (g : Graph) : CrossReferences where
  uses := g.methodItems.keys.foldl Std.TreeMap.erase x.uses

/-- Adds what a method names. -/
def add (x : CrossReferences) (method : UInt32) (u : Uses) : CrossReferences where
  uses := x.uses.insert method u
  stringUsers := x.stringUsers.add method u.strings
  typeUsers := x.typeUsers.add method u.types
  fieldUsers := x.fieldUsers.add method u.fields
  methodUsers := x.methodUsers.add method u.methods

/-- What the method registered under an index names. -/
def usesOf (x : CrossReferences) (method : UInt32) : Uses :=
  x.uses.getD method {}

end CrossReferences

namespace Graph

/-- The body of the method registered under an index, if the image holds one. -/
def bodyOf? (g : Graph) (method : UInt32) : Option CodeItem := do
  let m ← g.methodItem? method
  g.get? (← m.body?)

/-- The index under which the method at a place is registered, if it is. As a rule this is the
index that the method has. -/
def registeredIndex? (g : Graph) (l : MethodLocator) : Option UInt32 := do
  let m ← g.methodAt? l
  if g.methodItems[m.method.slot]? = some l then return m.method.slot
  g.methodItems.keys.find? fun i => g.methodItems[i]? = some l

end Graph

namespace CrossReferences

/-- What the method at a place names. Only registered methods are looked through. -/
def usesAt (x : CrossReferences) (g : Graph) (l : MethodLocator) : Uses :=
  match g.registeredIndex? l with
  | some i => x.usesOf i
  | none => {}

/-- Looks through the body of the method registered under an index. -/
def scan (g : Graph) (x : CrossReferences) (method : UInt32) : CrossReferences :=
  match g.bodyOf? method with
  | some code => x.add method (Uses.ofBody g code.instructions)
  | none => x

/-- Looks through the registered methods of a graph. What was found before is forgotten. -/
def refresh (x : CrossReferences) (g : Graph) : CrossReferences :=
  g.methodItems.keys.foldl (scan g) (x.clear g)

end CrossReferences

end DexGraph
