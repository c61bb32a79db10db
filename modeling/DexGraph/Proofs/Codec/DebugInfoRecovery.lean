import DexGraph.Codec.DebugInfo
import DexGraph.Proofs.Bytes.Recovers

/-!
# Debug info is read back

A debug-info stream says itself where it ends. So the bytes of a complete stream are found again
wherever they stand (`DebugInfo.decode_recovers`): what follows them does not matter, nor how many
operations could still come.
-/

namespace DexGraph.DebugInfo

open Decoder

theorem portable_skipOperands (operation : UInt8) : (skipOperands operation).Portable := by
  unfold skipOperands
  split
  · exact portable_unsignedLeb.discard
  · exact portable_unsignedLeb.discard
  · exact portable_unsignedLeb.discard
  · exact portable_signedLeb.discard
  · exact portable_unsignedLeb.discard.times 3
  · exact portable_unsignedLeb.discard.times 4
  · exact portable_unsignedLeb.discard
  · exact portable_pure

/-- The operations that have been passed over are passed over again wherever they stand, if their
number is bounded by no less than that of their bytes. -/
theorem exists_of_skipOperations {count : Nat} {data : Bytes} {p q : Nat}
    (h : (skipOperations count).Reads data p () q) :
    ∃ part, data.HoldsAt p part ∧ q = p + part.length ∧ part ≠ [] ∧
      ∀ count, part.length ≤ count → (skipOperations count).Recovers part () := by
  induction count generalizing p with
  | zero => exact absurd h not_reads_fail
  | succ count ih =>
    obtain ⟨operation, r, hoperation, hrest⟩ := reads_bind_iff.mp h
    obtain ⟨hbyte, rfl⟩ := reads_byte_iff.mp hoperation
    by_cases hend : operation = 0
    · rw [if_pos (by simp [hend])] at hrest
      obtain ⟨-, rfl⟩ := reads_pure_iff.mp hrest
      refine ⟨[operation], Bytes.holdsAt_singleton.mpr hbyte, rfl, by simp, fun count hcount => ?_⟩
      obtain ⟨count, rfl⟩ := Nat.exists_eq_add_of_lt hcount
      refine Recovers.cons_bind recovers_byte ?_
      rw [if_pos (by simp [hend])]
      exact recovers_pure
    · rw [if_neg (by simpa using hend)] at hrest
      obtain ⟨_, r, hoperands, hrest⟩ := reads_bind_iff.mp hrest
      obtain ⟨operands, hat, rfl, hrecovers⟩ := portable_skipOperands operation _ _ _ _ hoperands
      obtain ⟨rest, hat', rfl, -, hrecovers'⟩ := ih hrest
      refine ⟨operation :: (operands ++ rest), ?_, by simp; omega, by simp, fun count hcount => ?_⟩
      · rw [Bytes.holdsAt_cons, Bytes.holdsAt_append]
        exact ⟨hbyte, hat, hat'⟩
      · simp only [List.length_cons, List.length_append] at hcount
        obtain ⟨count, rfl⟩ := Nat.exists_eq_add_of_lt hcount
        refine Recovers.cons_bind recovers_byte ?_
        rw [if_neg (by simpa using hend)]
        exact hrecovers.bind (hrecovers' _ (by omega))

theorem portable_skip : skip.Portable := by
  refine portable_unsignedLeb.bind fun _ => portable_unsignedLeb.bind fun parameters =>
    (portable_unsignedLeb.discard.times _).bind fun _ => ?_
  intro data p u q h
  obtain ⟨n, r, hn, hoperations⟩ := reads_bind_iff.mp h
  obtain ⟨-, rfl⟩ := reads_remaining_iff.mp hn
  obtain ⟨part, hat, hq, -, hrecovers⟩ := exists_of_skipOperations hoperations
  exact ⟨part, hat, hq, recovers_remaining_bind hrecovers⟩

/-- The stream ends with its last byte, and not before. -/
def Complete (x : DebugInfo) : Prop :=
  skip.Reads x.bytes 0 () x.bytes.size

theorem Complete.size_pos {x : DebugInfo} (h : x.Complete) : 0 < x.bytes.size := by
  obtain ⟨_, r, hline, -⟩ := reads_bind_iff.mp h
  obtain ⟨gs, hterminated, -, hat, -⟩ := reads_unsignedLeb_iff.mp hline
  have hfits := hat.add_length_le hterminated.ne_nil
  have hpos := List.length_pos_iff.mpr hterminated.ne_nil
  omega

/-- A complete stream is read wherever its bytes stand. -/
theorem decode_recovers {x : DebugInfo} (h : x.Complete) : decode.Recovers x.bytes.toList x := by
  obtain ⟨part, hat, hsize, hrecovers⟩ := portable_skip _ _ _ _ h
  rw [Nat.zero_add] at hsize
  obtain rfl : part = x.bytes.toList :=
    hat.unique (Bytes.holdsAt_whole x.bytes) (by rw [← hsize, Array.length_toList])
  intro data p hheld
  have hstop : skip.Reads data p () (p + x.bytes.size) := by
    rw [← Array.length_toList]
    exact hrecovers data p hheld
  have hle := hheld.add_size_le h.size_pos
  unfold Reads runAt at hstop ⊢
  rw [Array.length_toList]
  refine Except.bind_eq_ok_iff.mpr ⟨_, hstop, ?_⟩
  dsimp only
  rw [Bytes.extract_eq_of_holdsAt hheld hle]
  rfl

end DexGraph.DebugInfo
