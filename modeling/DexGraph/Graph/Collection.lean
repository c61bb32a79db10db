import DexGraph.Error
import DexGraph.Graph.Entities

/-!
# Collections

A collection holds the entities of a section. An entity keeps the slot under which it was added;
beside the slots a collection has an order of its own, in which its entities are laid out. Adding
puts an entity last, and `Collection.reorder` puts chosen ones first. The entries of a table are
always taken in the order of their slots, since a slot is their index.
-/

namespace DexGraph

/-- The entities of a section, by slot, and the order in which they are laid out. -/
structure Collection (s : Section) where
  items : Array s.Content
  order : Array (Ref s)

namespace Collection

variable {s : Section}

/-- The collection without entities. -/
def empty : Collection s := ⟨#[], #[]⟩

instance : EmptyCollection (Collection s) := ⟨empty⟩

/-- The number of entities. -/
def size (c : Collection s) : Nat :=
  c.items.size

/-- Whether there are no entities. -/
def isEmpty (c : Collection s) : Bool :=
  c.items.isEmpty

/-- The entity that a reference names. -/
def get? (c : Collection s) (r : Ref s) : Option s.Content :=
  c.items[r.pos]?

/-- Adds an entity behind all others. -/
def add (c : Collection s) (x : s.Content) : Ref s × Collection s :=
  let r : Ref s := .ofPos c.items.size
  (r, ⟨c.items.push x, c.order.push r⟩)

/-- Adds the entry of a given index of a table, which has to be the next one. -/
def addAt (c : Collection s) (index : UInt32) (x : s.Content) :
    Except Error (Ref s × Collection s) :=
  if index.toNat = c.size then .ok (c.add x)
  else .error (.malformed (.rowOutOfOrder s index c.size))

/-- Replaces an entity by its image. -/
def modify (c : Collection s) (r : Ref s) (f : s.Content → s.Content) : Collection s :=
  { c with items := c.items.modify r.pos f }

/-- The references to all entities by slot. -/
def refs (c : Collection s) : Array (Ref s) :=
  (Array.range c.size).map .ofPos

/-- The entities with their references, in their order. -/
def entries (c : Collection s) : Array (Ref s × s.Content) :=
  c.order.filterMap fun r => (c.get? r).map (r, ·)

/-- The first entity in order, with its reference. -/
def first? (c : Collection s) : Option (Ref s × s.Content) := do
  let r ← c.order[0]?
  return (r, ← c.get? r)

/-- The reference to the entry of an index, if there is one. -/
def refAt? (c : Collection s) (index : UInt32) : Option (Ref s) :=
  if index.toNat < c.size then some ⟨index⟩ else none

/-- The reference to the entry of an index, which an image names and so has to exist. -/
def resolve (c : Collection s) (index : UInt32) : Except Error (Ref s) :=
  match c.refAt? index with
  | some r => .ok r
  | none => .error (.missingReference s index c.size)

/-- Like `resolve`; the index `noIndex` stands for no entry. -/
def resolveOrNone (c : Collection s) (index : UInt32) : Except Error (Option (Ref s)) :=
  if index = noIndex then .ok none else return some (← c.resolve index)

/-! ## Order -/

/-- The slots that have been put in order, and the order so far. -/
structure Ordering (s : Section) where
  placed : Array Bool
  order : Array (Ref s)

namespace Ordering

/-- No slot out of `count` has been put in order. -/
def start (count : Nat) : Ordering s :=
  ⟨Array.replicate count false, #[]⟩

/-- Whether a reference names an entity that has not been put in order. -/
def isOpen (o : Ordering s) (r : Ref s) : Bool :=
  o.placed[r.pos]? == some false

/-- Puts an entity next, unless it has been put in order or does not exist. -/
def place (o : Ordering s) (r : Ref s) : Ordering s :=
  if o.isOpen r then ⟨o.placed.setIfInBounds r.pos true, o.order.push r⟩ else o

end Ordering

/-- Puts the named entities first, each once and in the order in which they are first named; the
others follow in their order. -/
def reorder (c : Collection s) (first : Array (Ref s)) : Collection s :=
  let named := first.foldl Ordering.place (Ordering.start c.size)
  { c with order := named.order ++ c.order.filter named.isOpen }

theorem items_reorder (c : Collection s) (first : Array (Ref s)) :
    (c.reorder first).items = c.items := rfl

theorem get?_reorder (c : Collection s) (first : Array (Ref s)) (r : Ref s) :
    (c.reorder first).get? r = c.get? r := rfl

end Collection

end DexGraph
