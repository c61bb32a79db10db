import DexGraph.Bytes.LittleEndian
import Mathlib

/-!
# Bytes that stand at a position

`Bytes.HoldsAt data p part` says that the byte string `data` has the bytes `part` from position
`p` on. It is the one view of a byte string in which everything about codecs and writers is said:
`Bytes.holdsAt_append` cuts it at a seam, and `Bytes.getElem?_overlay` says which bytes a store
leaves.
-/

namespace DexGraph

/-- A number that a word holds is given back by the word. -/
theorem toNat_toUInt32 {n : Nat} (h : n < 2 ^ 32) : n.toUInt32.toNat = n := by
  rw [Nat.toUInt32_eq, UInt32.toNat_ofNat', Nat.mod_eq_of_lt h]

namespace Bytes

/-- The byte string has the bytes `part` from position `p` on. -/
def HoldsAt (data : Bytes) (p : Nat) (part : List UInt8) : Prop :=
  ∀ i b, part[i]? = some b → data[p + i]? = some b

variable {data : Bytes} {p : Nat} {part : List UInt8}

@[simp] theorem holdsAt_nil (data : Bytes) (p : Nat) : data.HoldsAt p [] := by
  intro i b h
  simp at h

theorem holdsAt_append {first second : List UInt8} :
    data.HoldsAt p (first ++ second) ↔
      data.HoldsAt p first ∧ data.HoldsAt (p + first.length) second := by
  constructor
  · intro h
    refine ⟨fun i b hi => h i b ?_, fun i b hi => ?_⟩
    · rw [List.getElem?_append_left (List.getElem?_eq_some_iff.mp hi).1, hi]
    · rw [Nat.add_assoc]
      refine h (first.length + i) b ?_
      rw [List.getElem?_append_right (Nat.le_add_right ..), Nat.add_sub_cancel_left, hi]
  · rintro ⟨h₁, h₂⟩ i b hi
    by_cases hlt : i < first.length
    · rw [List.getElem?_append_left hlt] at hi
      exact h₁ i b hi
    · rw [List.getElem?_append_right (Nat.le_of_not_lt hlt)] at hi
      have h := h₂ (i - first.length) b hi
      rwa [Nat.add_assoc, Nat.add_sub_cancel' (Nat.le_of_not_lt hlt)] at h

theorem holdsAt_singleton {b : UInt8} : data.HoldsAt p [b] ↔ data[p]? = some b := by
  constructor
  · intro h
    exact h 0 b rfl
  · intro h i c hc
    obtain ⟨hi, rfl⟩ := List.getElem?_eq_some_iff.mp hc
    obtain rfl : i = 0 := by simpa using hi
    simpa using h

theorem holdsAt_cons {b : UInt8} {rest : List UInt8} :
    data.HoldsAt p (b :: rest) ↔ data[p]? = some b ∧ data.HoldsAt (p + 1) rest := by
  rw [← List.singleton_append, holdsAt_append, holdsAt_singleton, List.length_singleton]

theorem HoldsAt.add_length_le (h : data.HoldsAt p part) (hne : part ≠ []) :
    p + part.length ≤ data.size := by
  have hpos : 0 < part.length := List.length_pos_iff.mpr hne
  have hlast := h (part.length - 1) _ (List.getElem?_eq_getElem (by omega))
  have := (Array.getElem?_eq_some_iff.mp hlast).1
  omega

theorem HoldsAt.add_size_le {part : Bytes} (h : data.HoldsAt p part.toList)
    (hpos : 0 < part.size) : p + part.size ≤ data.size := by
  rw [← Array.length_toList] at hpos ⊢
  exact h.add_length_le (List.ne_nil_of_length_pos hpos)

theorem HoldsAt.getElem?_eq (h : data.HoldsAt p part) {i : Nat} (hi : i < part.length) :
    data[p + i]? = part[i]? := by
  rw [List.getElem?_eq_getElem hi]
  exact h i part[i] (List.getElem?_eq_getElem hi)

theorem HoldsAt.congr {other : Bytes} (h : data.HoldsAt p part)
    (heq : ∀ i, p ≤ i → i < p + part.length → other[i]? = data[i]?) : other.HoldsAt p part := by
  intro i b hi
  have hlt := (List.getElem?_eq_some_iff.mp hi).1
  rw [heq (p + i) (Nat.le_add_right ..) (by omega)]
  exact h i b hi

theorem HoldsAt.unique {other : List UInt8} (h : data.HoldsAt p part) (h' : data.HoldsAt p other)
    (hlen : part.length = other.length) : part = other := by
  apply List.ext_getElem hlen
  intro i h₁ h₂
  have e₁ := h i _ (List.getElem?_eq_getElem h₁)
  have e₂ := h' i _ (List.getElem?_eq_getElem h₂)
  exact Option.some.inj (e₁.symm.trans e₂)

theorem extract_eq_of_holdsAt {part : Bytes} (h : data.HoldsAt p part.toList)
    (hle : p + part.size ≤ data.size) : data.extract p (p + part.size) = part := by
  apply Array.ext
  · simp only [Array.size_extract]
    omega
  · intro i h₁ h₂
    rw [Array.getElem_extract]
    have e := h i part[i] (by simp [h₂])
    rw [Array.getElem?_eq_getElem (by omega)] at e
    exact Option.some.inj e

theorem holdsAt_extract (data : Bytes) (p q : Nat) :
    data.HoldsAt p (data.extract p q).toList := by
  intro i b hi
  rw [Array.getElem?_toList, Array.getElem?_extract] at hi
  split at hi
  · exact hi
  · cases hi

theorem holdsAt_whole (data : Bytes) : data.HoldsAt 0 data.toList := by
  intro i b hi
  rwa [Nat.zero_add, ← Array.getElem?_toList]

theorem holdsAt_between (before part rest : List UInt8) :
    HoldsAt (before ++ part ++ rest).toArray before.length part := by
  have hwhole := holdsAt_whole (before ++ part ++ rest).toArray
  have hpart := (holdsAt_append.mp (holdsAt_append.mp hwhole).1).2
  rwa [Nat.zero_add] at hpart

theorem slice?_of_holdsAt {part : Bytes} (h : data.HoldsAt p part.toList)
    (hle : p + part.size ≤ data.size) : data.slice? p part.size = some part :=
  slice?_eq_some_iff.mpr ⟨hle, extract_eq_of_holdsAt h hle⟩

theorem holdsAt_of_slice? {part : Bytes} {n : Nat} (h : data.slice? p n = some part) :
    data.HoldsAt p part.toList ∧ part.size = n := by
  obtain ⟨hle, rfl⟩ := slice?_eq_some_iff.mp h
  refine ⟨holdsAt_extract data p _, ?_⟩
  simp only [Array.size_extract]
  omega

/-! ## What a store leaves -/

private theorem getElem?_fold_set (source : Bytes) (p n : Nat) (hn : n ≤ source.size)
    (target : Bytes) (i : Nat) :
    (n.fold (fun i h target => target.setIfInBounds (p + i) (have hlt := Nat.lt_of_lt_of_le h hn; source[i]))
      target)[i]? =
      if p ≤ i ∧ i < p + n ∧ i < target.size then source[i - p]? else target[i]? := by
  induction n with
  | zero =>
    rw [Nat.fold_zero, if_neg]
    omega
  | succ n ih =>
    rw [Nat.fold_succ, Array.getElem?_setIfInBounds, ih (Nat.le_of_succ_le hn)]
    have hsize : (n.fold (fun i h target => target.setIfInBounds (p + i)
        (have hlt := Nat.lt_of_lt_of_le h (Nat.le_of_succ_le hn); source[i])) target).size = target.size :=
      size_fold _ _ (fun _ _ _ => Array.size_setIfInBounds ..) target
    by_cases hi : p + n = i
    · subst hi
      rw [if_pos rfl, hsize]
      by_cases hlt : p + n < target.size
      · rw [if_pos hlt, if_pos ⟨by omega, by omega, hlt⟩, Nat.add_sub_cancel_left,
          Array.getElem?_eq_getElem]
      · rw [if_neg hlt, if_neg (by omega), Array.getElem?_eq_none (by omega)]
    · rw [if_neg hi]
      by_cases hin : p ≤ i ∧ i < p + n ∧ i < target.size
      · rw [if_pos hin, if_pos (by omega)]
      · rw [if_neg hin, if_neg (by omega)]

theorem getElem?_overlay (target source : Bytes) (p i : Nat) :
    (target.overlay p source)[i]? =
      if p ≤ i ∧ i < p + source.size ∧ i < target.size then source[i - p]? else target[i]? :=
  getElem?_fold_set source p source.size (Nat.le_refl _) target i

theorem holdsAt_overlay {target source : Bytes} (h : p + source.size ≤ target.size) :
    (target.overlay p source).HoldsAt p source.toList := by
  intro i b hi
  rw [Array.getElem?_toList] at hi
  have hlt := (Array.getElem?_eq_some_iff.mp hi).1
  rw [getElem?_overlay, if_pos (by omega), Nat.add_sub_cancel_left, hi]

/-- Storing bytes one behind the other is storing them at once. -/
theorem overlay_append (target first second : Bytes) (p : Nat) :
    (target.overlay p first).overlay (p + first.size) second =
      target.overlay p (first ++ second) := by
  apply Array.ext_getElem?
  intro i
  simp only [getElem?_overlay, size_overlay, Array.size_append, Array.getElem?_append]
  by_cases hfirst : p ≤ i ∧ i < p + first.size ∧ i < target.size
  · rw [if_neg (by omega), if_pos hfirst, if_pos (by omega), if_pos (by omega)]
  · by_cases hsecond : p + first.size ≤ i ∧ i < p + first.size + second.size ∧ i < target.size
    · rw [if_pos hsecond, if_pos (by omega), if_neg (by omega), Nat.sub_add_eq]
    · rw [if_neg hsecond, if_neg hfirst, if_neg (by omega)]

/-- Storing the bytes that are there already changes nothing. -/
theorem overlay_eq_self {source : Bytes} (h : data.HoldsAt p source.toList) :
    data.overlay p source = data := by
  apply Array.ext_getElem?
  intro i
  rw [getElem?_overlay]
  split
  · rename_i hi
    have hbyte := h.getElem?_eq (i := i - p) (by rw [Array.length_toList]; omega)
    rw [Nat.add_sub_cancel' hi.1, Array.getElem?_toList] at hbyte
    exact hbyte.symm
  · rfl

theorem HoldsAt.overlay {source : Bytes} {q : Nat} (h : data.HoldsAt p part)
    (hdisj : p + part.length ≤ q ∨ q + source.size ≤ p) :
    (data.overlay q source).HoldsAt p part := by
  refine h.congr fun i h₁ h₂ => ?_
  rw [getElem?_overlay, if_neg (by omega)]

end Bytes

end DexGraph
