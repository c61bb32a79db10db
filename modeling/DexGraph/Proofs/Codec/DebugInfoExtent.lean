import DexGraph.Proofs.Codec.DebugInfoRecovery

/-!
# How far a debug-info stream goes

`DebugInfo.streamLength` is the length that walking through a stream gives. It depends on the bytes
that were walked through and on nothing else, so the stream can be cut out and put down elsewhere
(`DebugInfo.streamLength_of_holdsAt`), and nothing shorter would do
(`DebugInfo.streamLength_of_cut`). The walk ends on every input: `DebugInfo.Ends` is the loop over
the operations with no bound on their number, and `DebugInfo.ends_iff` says that it comes to exactly
one outcome, for which as many steps are enough as there are bytes left.
-/

namespace DexGraph.DebugInfo

open Decoder

variable {data : Bytes} {p n : Nat}

/-! ## The loop over the operations -/

/-- How the operations from a position on end, however many of them there are: behind the operation
zero, or with an error where the bytes end or an operand is none. -/
inductive Ends (data : Bytes) : (p : Nat) → (outcome : Except Error Nat) → Prop
  | cut {p : Nat} : data[p]? = none → Ends data p (.error .outOfBounds)
  | last {p : Nat} : data[p]? = some 0 → Ends data p (.ok (p + 1))
  | stuck {p : Nat} {operation : UInt8} {e : Error} : data[p]? = some operation → operation ≠ 0 →
      (skipOperands operation).runAt data (p + 1) = .error e → Ends data p (.error e)
  | next {p q : Nat} {operation : UInt8} {outcome : Except Error Nat} :
      data[p]? = some operation → operation ≠ 0 →
      (skipOperands operation).Reads data (p + 1) () q → Ends data q outcome → Ends data p outcome

theorem le_of_skipOperands {operation : UInt8} {q : Nat}
    (h : (skipOperands operation).Reads data p () q) : p ≤ q := by
  obtain ⟨part, -, rfl, -⟩ := portable_skipOperands operation _ _ _ _ h
  exact Nat.le_add_right p part.length

/-- One turn of the bounded loop. -/
theorem runAt_skipOperations_succ (count : Nat) :
    (skipOperations (count + 1)).runAt data p =
      match data[p]? with
      | some operation =>
        if operation = 0 then .ok ((), p + 1)
        else match (skipOperands operation).runAt data (p + 1) with
          | .ok (_, q) => (skipOperations count).runAt data q
          | .error e => .error e
      | none => .error .outOfBounds := by
  have hbyte : byte.runAt data p = match data[p]? with
      | some b => .ok (b, p + 1)
      | none => .error .outOfBounds := rfl
  rw [skipOperations, runAt_bind, hbyte]
  cases data[p]? with
  | none => rfl
  | some operation =>
    dsimp only
    by_cases hend : operation = 0
    · rw [if_pos (by simp [hend]), if_pos hend]
      rfl
    · rw [if_neg (by simpa using hend), if_neg hend, runAt_bind]
      cases (skipOperands operation).runAt data (p + 1) <;> rfl

/-- The loop comes to an outcome, which is the one of the bounded loop. -/
theorem ends_skipOperations (count : Nat) (hcount : data.size - p ≤ count) :
    Ends data p (((skipOperations count).runAt data p).map Prod.snd) := by
  induction count generalizing p with
  | zero => exact .cut (Array.getElem?_eq_none (by omega))
  | succ count ih =>
    rw [runAt_skipOperations_succ]
    cases hbyte : data[p]? with
    | none => exact .cut hbyte
    | some operation =>
      have hlt := (Array.getElem?_eq_some_iff.mp hbyte).1
      dsimp only
      by_cases hend : operation = 0
      · rw [if_pos hend]
        exact .last (hend ▸ hbyte)
      · rw [if_neg hend]
        cases hoperands : (skipOperands operation).runAt data (p + 1) with
        | error e => exact .stuck hbyte hend hoperands
        | ok out =>
          have hle := le_of_skipOperands hoperands
          exact .next hbyte hend hoperands (ih (by omega))

/-- The outcome to which the loop comes is found within as many turns as there are bytes left. -/
theorem Ends.eq_skipOperations {outcome : Except Error Nat} (h : Ends data p outcome) (count : Nat)
    (hcount : data.size - p ≤ count) :
    ((skipOperations count).runAt data p).map Prod.snd = outcome := by
  have hsucc {q : Nat} {operation : UInt8} (hbyte : data[q]? = some operation) {count : Nat}
      (hcount : data.size - q ≤ count) : ∃ n, count = n + 1 ∧ data.size - (q + 1) ≤ n := by
    have hlt := (Array.getElem?_eq_some_iff.mp hbyte).1
    exact ⟨count - 1, by omega, by omega⟩
  induction h generalizing count with
  | cut hbyte =>
    cases count with
    | zero => rfl
    | succ count =>
      rw [runAt_skipOperations_succ, hbyte]
      rfl
  | last hbyte =>
    obtain ⟨count, rfl, -⟩ := hsucc hbyte hcount
    rw [runAt_skipOperations_succ, hbyte]
    rfl
  | stuck hbyte hend hoperands =>
    obtain ⟨count, rfl, -⟩ := hsucc hbyte hcount
    rw [runAt_skipOperations_succ, hbyte]
    dsimp only
    rw [if_neg hend, hoperands]
    rfl
  | next hbyte hend hoperands _ ih =>
    have hle := le_of_skipOperands hoperands
    obtain ⟨count, rfl, hleft⟩ := hsucc hbyte hcount
    rw [runAt_skipOperations_succ, hbyte]
    dsimp only
    rw [if_neg hend, hoperands]
    exact ih count (by omega)

/-- The loop comes to exactly one outcome. -/
theorem ends_iff {outcome : Except Error Nat} : Ends data p outcome ↔
    ((skipOperations (data.size - p)).runAt data p).map Prod.snd = outcome := by
  refine ⟨fun h => h.eq_skipOperations _ (Nat.le_refl _), ?_⟩
  rintro rfl
  exact ends_skipOperations _ (Nat.le_refl _)

/-! ## Lengths -/

/-- The length of the stream at a position. -/
def streamLength (data : Bytes) (p : Nat) : Except Error Nat :=
  (skip.runAt data p).map fun out => out.2 - p

theorem streamLength_eq_ok_iff : streamLength data p = .ok n ↔ skip.Reads data p () (p + n) := by
  unfold streamLength Reads
  cases hrun : skip.runAt data p with
  | error e => simp [Except.map]
  | ok out =>
    obtain ⟨_, stop⟩ := out
    obtain ⟨part, -, rfl, -⟩ := portable_skip _ _ _ _ hrun
    simp [Except.map]

/-- The bytes of a stream give its length, wherever they stand. -/
theorem recovers_of_streamLength (h : streamLength data p = .ok n) :
    (data.extract p (p + n)).size = n ∧ skip.Recovers (data.extract p (p + n)).toList () := by
  obtain ⟨part, hat, hstop, hrecovers⟩ := portable_skip _ _ _ _ (streamLength_eq_ok_iff.mp h)
  obtain rfl : n = part.length := by omega
  have hfits : p + part.length ≤ data.size ∨ part.length = 0 := by
    by_cases hne : part = []
    · exact .inr (by rw [hne, List.length_nil])
    · exact .inl (hat.add_length_le hne)
  have hsize : (data.extract p (p + part.length)).size = part.length := by
    rw [Array.size_extract]
    omega
  have hpart : part = (data.extract p (p + part.length)).toList :=
    hat.unique (Bytes.holdsAt_extract data p _) (Array.length_toList.trans hsize).symm
  exact ⟨hsize, hpart ▸ hrecovers⟩

theorem complete_of_streamLength (h : streamLength data p = .ok n) :
    Complete ⟨data.extract p (p + n)⟩ := by
  have hrecovers :=
    (recovers_of_streamLength h).2 _ 0 (Bytes.holdsAt_whole (data.extract p (p + n)))
  rwa [Nat.zero_add, Array.length_toList] at hrecovers

theorem streamLength_of_holdsAt (h : streamLength data p = .ok n) {other : Bytes} {q : Nat}
    (hat : other.HoldsAt q (data.extract p (p + n)).toList) : streamLength other q = .ok n := by
  obtain ⟨hsize, hrecovers⟩ := recovers_of_streamLength h
  have hskip := hrecovers other q hat
  rw [Array.length_toList, hsize] at hskip
  exact streamLength_eq_ok_iff.mpr hskip

/-- A stream of which the end is missing has no length. -/
theorem streamLength_of_cut (h : streamLength data p = .ok n) {k : Nat} (hk : k < n)
    (before : Bytes) :
    ∃ e, streamLength (before ++ data.extract p (p + k)) before.size = .error e := by
  obtain ⟨hsize, hrecovers⟩ := recovers_of_streamLength h
  have hlength : k < (data.extract p (p + n)).toList.length := by
    rwa [Array.length_toList, hsize]
  obtain ⟨e, he⟩ := portable_skip.exists_error hrecovers hlength before.toList
  have htake : (before.toList ++ (data.extract p (p + n)).toList.take k).toArray =
      before ++ data.extract p (p + k) := by
    apply Array.toList_inj.mp
    have hmin : min k (p + n - p) = p + k - p := by omega
    rw [Array.toList_append, Array.toList_extract, Array.toList_extract, List.extract_eq_take_drop,
      List.extract_eq_take_drop, List.take_take, hmin]
  rw [htake, Array.length_toList] at he
  exact ⟨e, by rw [streamLength, he]; rfl⟩

/-- No stream is a proper beginning of another one. -/
theorem Complete.eq_of_begins {x y : DebugInfo} (hx : x.Complete) (hy : y.Complete)
    (hbegins : x.bytes.toList <+: y.bytes.toList) : x = y := by
  have hbytes := (decode_recovers hx).eq_of_begins (decode_recovers hy) hbegins
  cases x
  cases y
  exact congrArg DebugInfo.mk (Array.toList_inj.mp hbytes)

end DexGraph.DebugInfo
