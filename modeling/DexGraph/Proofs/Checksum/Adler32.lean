import DexGraph.Checksum.Adler32
import Mathlib

/-!
# Adler-32 with late reductions

The two sums of a checksum are reduced only at the end of a chunk. `Adler32.Residues` are the sums
as they are defined, reduced after every byte. `Sums.Carries` says how far the sums may have grown
since their last reduction and that they still stand for the residues: a byte is taken in without
overflow as long as a chunk has room for it (`Carries.add_lt`, `Carries.add`), and a reduction
starts anew (`Carries.reduce`). So the sums at every byte of every chunk fit into 32 bits, and the
checksum is the one that is defined (`adler32_exact`).
-/

namespace DexGraph

namespace Adler32

/-- The two sums modulo 65521. -/
structure Residues where
  low : Nat
  high : Nat

namespace Residues

/-- The sums of the empty byte string. -/
def start : Residues := ⟨1, 0⟩

/-- Takes in a byte and reduces both sums. -/
def add (r : Residues) (b : UInt8) : Residues :=
  let low := (r.low + b.toNat) % 65521
  ⟨low, (r.high + low) % 65521⟩

/-- The sums of a byte string, reduced after every byte. -/
def ofBytes (data : Bytes) : Residues :=
  data.foldl add start

end Residues

namespace Sums

/-- The sums stand for the residues, and at most `n` bytes have been taken in since they were
reduced. -/
structure Carries (s : Sums) (r : Residues) (n : Nat) : Prop where
  low_mod : s.low.toNat % 65521 = r.low
  high_mod : s.high.toNat % 65521 = r.high
  low_le : s.low.toNat ≤ 65520 + 255 * n
  high_le : 2 * s.high.toNat ≤ 131040 * (n + 1) + 255 * (n * (n + 1))

variable {s : Sums} {r : Residues} {n : Nat}

theorem carries_start : start.Carries Residues.start 0 where
  low_mod := rfl
  high_mod := rfl
  low_le := by simp [start]
  high_le := by simp [start]

/-- Within a chunk neither of the two additions for a byte overflows. -/
theorem Carries.add_lt (h : s.Carries r n) (hn : n < chunkSize) (b : UInt8) :
    s.low.toNat + b.toNat < 2 ^ 32 ∧ s.high.toNat + (s.low.toNat + b.toNat) < 2 ^ 32 := by
  have hb : b.toNat < 256 := b.toNat_lt
  have hlow := h.low_le
  have hhigh := h.high_le
  have hn : n ≤ 5551 := Nat.le_of_lt_succ hn
  have hsquare : n * (n + 1) ≤ 5551 * 5552 := Nat.mul_le_mul hn (Nat.succ_le_succ hn)
  omega

theorem Carries.toNat_add (h : s.Carries r n) (hn : n < chunkSize) (b : UInt8) :
    (s.add b).low.toNat = s.low.toNat + b.toNat ∧
      (s.add b).high.toNat = s.high.toNat + (s.low.toNat + b.toNat) := by
  obtain ⟨hlow, hhigh⟩ := h.add_lt hn b
  have hlow' : (s.add b).low.toNat = s.low.toNat + b.toNat := by
    rw [add, UInt32.toNat_add, UInt8.toNat_toUInt32, Nat.mod_eq_of_lt hlow]
  refine ⟨hlow', ?_⟩
  calc (s.add b).high.toNat = (s.high + (s.add b).low).toNat := rfl
    _ = s.high.toNat + (s.low.toNat + b.toNat) := by
      rw [UInt32.toNat_add, hlow', Nat.mod_eq_of_lt hhigh]

theorem Carries.add (h : s.Carries r n) (hn : n < chunkSize) (b : UInt8) :
    (s.add b).Carries (r.add b) (n + 1) := by
  obtain ⟨hlow, hhigh⟩ := h.toNat_add hn b
  have hb : b.toNat < 256 := b.toNat_lt
  have hlow_le := h.low_le
  have hhigh_le := h.high_le
  refine ⟨?_, ?_, ?_, ?_⟩
  · calc (s.add b).low.toNat % 65521 = (r.low + b.toNat) % 65521 := by
          rw [hlow, ← h.low_mod, Nat.mod_add_mod]
      _ = (r.add b).low := rfl
  · calc (s.add b).high.toNat % 65521 = (r.high + (r.low + b.toNat) % 65521) % 65521 := by
          rw [hhigh, ← h.low_mod, ← h.high_mod]
          omega
      _ = (r.add b).high := rfl
  · omega
  · have hsquare : (n + 1) * (n + 1 + 1) = n * (n + 1) + 2 * (n + 1) := by ring
    rw [hhigh, hsquare]
    omega

theorem Carries.foldl (h : s.Carries r n) (part : List UInt8)
    (hn : n + part.length ≤ chunkSize) :
    (part.foldl Sums.add s).Carries (part.foldl Residues.add r) (n + part.length) := by
  induction part generalizing s r n with
  | nil => exact h
  | cons b rest ih =>
    rw [List.length_cons] at hn ⊢
    have hrest := ih (h.add (by omega) b) (by omega)
    rwa [Nat.add_assoc, Nat.add_comm 1] at hrest

theorem Carries.reduce (h : s.Carries r n) : s.reduce.Carries r 0 := by
  have hlow : s.reduce.low.toNat = s.low.toNat % 65521 := UInt32.toNat_mod ..
  have hhigh : s.reduce.high.toNat = s.high.toNat % 65521 := UInt32.toNat_mod ..
  refine ⟨?_, ?_, ?_, ?_⟩
  · rw [hlow, Nat.mod_mod, h.low_mod]
  · rw [hhigh, Nat.mod_mod, h.high_mod]
  · omega
  · omega

/-- Reduced sums are the residues. -/
theorem Carries.toNat_value (h : s.Carries r 0) : s.value.toNat = r.high * 2 ^ 16 + r.low := by
  have hlow := h.low_le
  have hhigh := h.high_le
  have hlow' : s.low.toNat = r.low := by
    rw [← h.low_mod, Nat.mod_eq_of_lt (by omega)]
  have hhigh' : s.high.toNat = r.high := by
    rw [← h.high_mod, Nat.mod_eq_of_lt (by omega)]
  have hshift : (s.high <<< 16).toNat = r.high * 2 ^ 16 := by
    rw [UInt32.toNat_shiftLeft, hhigh', Nat.shiftLeft_eq]
    exact Nat.mod_eq_of_lt (by change r.high * 2 ^ 16 < 2 ^ 32; omega)
  rw [value, UInt32.toNat_or, hshift, hlow', ← Nat.shiftLeft_eq,
    ← Nat.shiftLeft_add_eq_or_of_lt (by omega), Nat.shiftLeft_eq]

end Sums

/-! ## Chunk after chunk -/

/-- The sums after the first `i` chunks. -/
def sumsAfter (data : Bytes) (i : Nat) : Sums :=
  i.fold (fun i _ sums => sums.addChunk (chunk data i)) Sums.start

/-- The sums with which the byte at place `j` of chunk `i` is met. -/
def sumsBefore (data : Bytes) (i j : Nat) : Sums :=
  ((chunk data i).extract 0 j).foldl Sums.add (sumsAfter data i)

theorem adler32_eq_value (data : Bytes) :
    adler32 data = (sumsAfter data (chunkCount data)).value := rfl

theorem toList_chunk (data : Bytes) (i : Nat) :
    (chunk data i).toList = (data.toList.drop (i * chunkSize)).take chunkSize := by
  rw [chunk, Array.toList_extract, List.extract_eq_take_drop, Nat.succ_mul,
    Nat.add_sub_cancel_left]

theorem size_chunk_le (data : Bytes) (i : Nat) : (chunk data i).size ≤ chunkSize := by
  rw [← Array.length_toList, toList_chunk]
  exact List.length_take_le ..

/-- A chunk leaves the sums reduced. -/
theorem carries_sumsAfter (data : Bytes) (i : Nat) :
    (sumsAfter data i).Carries
      ((data.toList.take (i * chunkSize)).foldl Residues.add Residues.start) 0 := by
  induction i with
  | zero =>
    rw [Nat.zero_mul, List.take_zero]
    exact Sums.carries_start
  | succ i ih =>
    have hchunk := ih.foldl (chunk data i).toList (by simpa using size_chunk_le data i)
    have hsums : sumsAfter data (i + 1) =
        ((chunk data i).toList.foldl Sums.add (sumsAfter data i)).reduce := by
      rw [Array.foldl_toList]
      exact Nat.fold_succ ..
    rw [hsums, Nat.succ_mul, List.take_add, List.foldl_append, ← toList_chunk]
    exact hchunk.reduce

theorem carries_sumsBefore (data : Bytes) (i : Nat) {j : Nat} (hj : j ≤ (chunk data i).size) :
    ∃ r, (sumsBefore data i j).Carries r j := by
  have hsize := size_chunk_le data i
  have hlength : ((chunk data i).extract 0 j).toList.length = j := by
    simpa using hj
  have h := (carries_sumsAfter data i).foldl ((chunk data i).extract 0 j).toList (by omega)
  rw [hlength, Nat.zero_add, Array.foldl_toList] at h
  exact ⟨_, h⟩

theorem size_le_chunkCount (data : Bytes) : data.size ≤ chunkCount data * chunkSize := by
  have hpos : 0 < chunkSize := by decide
  have := Nat.lt_div_mul_add (a := data.size + chunkSize - 1) hpos
  unfold chunkCount
  omega

end Adler32

open Adler32 in
/-- **Late reductions change nothing.** Neither of the two additions for a byte overflows,
whichever byte of whichever chunk it is, and the checksum consists of the sums that are reduced
after every byte. -/
theorem adler32_exact (data : Bytes) :
    (∀ i, ∀ j : Fin (chunk data i).size,
      (sumsBefore data i j).low.toNat + (chunk data i)[j].toNat < 2 ^ 32 ∧
      (sumsBefore data i j).high.toNat +
        ((sumsBefore data i j).low.toNat + (chunk data i)[j].toNat) < 2 ^ 32) ∧
    (adler32 data).toNat = (Residues.ofBytes data).high * 2 ^ 16 + (Residues.ofBytes data).low := by
  constructor
  · intro i j
    obtain ⟨r, h⟩ := carries_sumsBefore data i (Nat.le_of_lt j.isLt)
    exact h.add_lt (Nat.lt_of_lt_of_le j.isLt (size_chunk_le data i)) _
  · have h := carries_sumsAfter data (chunkCount data)
    rw [List.take_of_length_le (by simpa using size_le_chunkCount data), Array.foldl_toList] at h
    rw [adler32_eq_value]
    exact h.toNat_value

end DexGraph
