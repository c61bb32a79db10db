/-!
# Byte strings

Images are arrays of bytes. This file cuts ranges out of them and lays one byte string over
another.
-/

namespace DexGraph

/-- A byte string. -/
abbrev Bytes := Array UInt8

namespace Bytes

/-- The `length` bytes from a position on, if all of them lie inside. -/
def slice? (data : Bytes) (position length : Nat) : Option Bytes :=
  if position + length ≤ data.size then some (data.extract position (position + length))
  else none

/-- Lays `source` over `target` from a position on; what would lie past the end is dropped. -/
def overlay (target : Bytes) (position : Nat) (source : Bytes) : Bytes :=
  source.size.fold (fun i h target => target.setIfInBounds (position + i) source[i]) target

theorem slice?_eq_some_iff {data part : Bytes} {position length : Nat} :
    data.slice? position length = some part ↔
      position + length ≤ data.size ∧ data.extract position (position + length) = part := by
  simp [slice?]

theorem size_fold (n : Nat) (f : (i : Nat) → i < n → Bytes → Bytes)
    (hf : ∀ i h bytes, (f i h bytes).size = bytes.size) (bytes : Bytes) :
    (n.fold f bytes).size = bytes.size := by
  induction n with
  | zero => rfl
  | succ n ih => rw [Nat.fold_succ, hf, ih _ fun i h => hf i (Nat.lt_succ_of_lt h)]

@[simp] theorem size_overlay (target source : Bytes) (position : Nat) :
    (target.overlay position source).size = target.size :=
  size_fold _ _ (fun _ _ _ => Array.size_setIfInBounds ..) target

end Bytes

end DexGraph
