import DexGraph.Codec.CodeItem
import DexGraph.Writing.Basic

/-!
# Writing bodies

The offset of a body is needed by class data, which is written later, and a body needs the offset
of its debug info. So room is set aside for the bodies, then the debug info is written, and then
the bodies are filled in. A body that no method uses is written only if it has an offset; debug
info is written if a written body refers to it or if it has an offset.
-/

namespace DexGraph

namespace Graph

/-- The slots of the bodies that methods of the graph use. A native method uses none. -/
def liveCode (g : Graph) : Std.TreeSet UInt32 :=
  g.classDatas.entries.foldl
    (fun live (_, c) =>
      c.allMethods.foldl
        (fun live m =>
          match m.body? with
          | some code => live.insert code.slot
          | none => live)
        live)
    ∅

end Graph

namespace Writer

/-- The bodies that are written, in their order. -/
def codeRefs : Writer (Array (Ref .codeItem)) := do
  let job ← read
  let layout := (← get).layout
  return job.graph.codeItems.order.filter fun r =>
    job.live.contains r.slot || (layout.place r).hasOffset

/-- The debug info that is written, in its order. -/
def debugInfoRefs : Writer (Array (Ref .debugInfo)) := do
  let g := (← read).graph
  let used : Std.TreeSet UInt32 := (← codeRefs).foldl
    (fun used r =>
      match (g.get? r).bind CodeItem.debugInfo with
      | some d => used.insert d.slot
      | none => used)
    ∅
  let layout := (← get).layout
  return g.debugInfos.order.filter fun r => used.contains r.slot || (layout.place r).hasOffset

/-- Sets room aside for one body. The result is the offset of the first one. -/
def reserveBody (first : Option UInt32) (r : Ref .codeItem) : Writer (Option UInt32) := do
  match (← read).graph.get? r with
  | none => return first
  | some code =>
    let item ← ofExcept (code.encode 0)
    let start ← place none Section.codeItem.alignment (.entity .codeItem)
    changeStream fun stream => stream.skip item.length
    changeLayout fun l => l.setOffset r (some start)
    let size ← ofExcept (toWord item.length)
    changeLayout fun l => l.setSize r size
    return first <|> some start

/-- Sets room aside for the bodies, if the layout is computed. -/
def reserveCode : Writer Unit := do
  if ← computesOffsets then
    match ← (← codeRefs).foldlM reserveBody none with
    | some first => changeLayout fun l => l.setSectionOffset .codeItem (some first)
    | none => return

/-- Stores one body where it has its place. The result is the least offset so far. -/
def writeBody (first : UInt32) (r : Ref .codeItem) : Writer UInt32 := do
  match (← read).graph.get? r with
  | none => return first
  | some code =>
    let layout := (← get).layout
    let offset ← ofExcept (layout.offsetOf r)
    let debugInfoOffset ← ofExcept (layout.offsetOrZero code.debugInfo)
    let item ← ofExcept (code.encode debugInfoOffset)
    changeStream fun stream => stream.seek offset.toNat ++ item
    let size ← ofExcept (toWord ((← tell) - offset.toNat))
    changeLayout fun l => l.setSize r size
    return min first offset

/-- Stores the bodies. If the layout is computed, the output goes on behind the room that was set
aside for them. -/
def writeCode : Writer Unit := do
  let refs ← codeRefs
  let resume ← tell
  let first ← refs.foldlM writeBody 0xFFFFFFFF
  if !refs.isEmpty && ((← get).layout.sectionOffset .codeItem).isNone then
    changeLayout fun l => l.setSectionOffset .codeItem (some first)
  if ← computesOffsets then
    changeStream fun stream => stream.seek resume

end Writer

end DexGraph
