import DexGraph.Image
import DexGraph.Proofs.Bytes.HoldsAt

/-!
# Evaluating writers and readers

That a fixed graph is written, or that its image is read back, is seen by evaluation. Two
definitions are slow there: a store into an image walks through the image once for each of its
bytes, and the bytes of a loaded image are copied one at a time. `Bytes.overlay_eq_laid` and
`Image.data_eq_take` put forms in their place that walk through the image once.
-/

namespace DexGraph

namespace Bytes

/-- The second list laid over the first one from a position on, in one pass. -/
def laid : List UInt8 → Nat → List UInt8 → List UInt8
  | [], _, _ => []
  | b :: target, 0, [] => b :: target
  | _ :: target, 0, b :: source => b :: laid target 0 source
  | b :: target, p + 1, source => b :: laid target p source

theorem getElem?_laid (target source : List UInt8) (p i : Nat) :
    (laid target p source)[i]? =
      if p ≤ i ∧ i < p + source.length ∧ i < target.length then source[i - p]? else target[i]? := by
  fun_induction laid target p source generalizing i with
  | case1 p source => simp
  | case2 b target => simp
  | case3 b target b' source ih =>
    cases i with
    | zero => simp
    | succ i => simp [ih]
  | case4 b target p source ih =>
    cases i with
    | zero => simp
    | succ i => simp [ih, Nat.succ_add]

theorem overlay_eq_laid (target source : Bytes) (position : Nat) :
    target.overlay position source = (laid target.toList position source.toList).toArray := by
  apply Array.ext_getElem?
  intro i
  simp only [getElem?_overlay, List.getElem?_toArray, getElem?_laid, Array.length_toList,
    Array.getElem?_toList]

end Bytes

theorem Except.toOption_eq_some_iff {ε α : Type} {x : Except ε α} {a : α} :
    x.toOption = some a ↔ x = .ok a := by
  cases x with
  | ok b =>
    rw [Except.ok.injEq]
    exact Option.some_inj
  | error e => exact ⟨nofun, nofun⟩

theorem Image.data_eq_take (image : Image) :
    image.data = (image.bytes.toList.take image.fileSize).toArray := by
  apply Array.toList_inj.mp
  simp [data]

end DexGraph
