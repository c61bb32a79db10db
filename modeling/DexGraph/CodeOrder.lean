import DexGraph.Graph.Basic

/-!
# Code in class order

Bodies that are used together had better lie together. `Graph.orderCodeByClass` puts the bodies in
the order in which the classes use them; bodies that no class uses come last.
-/

namespace DexGraph.Graph

/-- The bodies that the methods of a class use, in the order of the methods. -/
def codeOfClass (g : Graph) (c : ClassDef) : Array (Ref .codeItem) :=
  match c.classData.bind g.get? with
  | some members => members.allMethods.filterMap MethodItem.body?
  | none => #[]

/-- The bodies that the classes use, in the order of the classes; a body may come several
times. -/
def codeInClassOrder (g : Graph) : Array (Ref .codeItem) :=
  g.classDefs.items.flatMap g.codeOfClass

/-- Puts the bodies in the order in which the classes use them. -/
def orderCodeByClass (g : Graph) : Graph :=
  g.reorder .codeItem g.codeInClassOrder

end DexGraph.Graph
