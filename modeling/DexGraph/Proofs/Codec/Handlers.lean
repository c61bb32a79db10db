import DexGraph.Codec.CodeItem
import DexGraph.Proofs.Codec.ValueRecovery

/-!
# Catch handlers are read back

A handler that a graph can have is read again wherever its bytes stand
(`CatchHandler.decode_recovers`). In the other direction, a handler that is read is one that a graph
can have, and the bytes from which it is read are no fewer than those of its shortest form
(`CatchHandler.exists_of_decode`).
-/

namespace DexGraph

namespace CatchHandler

open Decoder

/-! ## Clauses -/

/-- The clauses for the exceptions of a type, which come before the one for all exceptions. -/
def typed (h : CatchHandler) : List CatchClause :=
  if h.catchesAll then h.clauses.toList.dropLast else h.clauses.toList

/-- The bytes of a clause. -/
def clauseBytes (clause : CatchClause) : List UInt8 :=
  ((clause.type.map fun r => Leb128.encodeUnsigned r.slot).getD #[]).toList ++
    (Leb128.encodeUnsigned clause.address).toList

theorem toList_encode (h : CatchHandler) : h.encode.toList =
    (Leb128.encodeSigned h.statedSize).toList ++ h.clauses.toList.flatMap clauseBytes := by
  unfold encode clauseBytes
  simp only [← Array.foldl_toList, Array.append_assoc, Bytes.toList_foldl_append,
    Array.toList_append]

/-- The clause names a type of the graph. -/
def HasType (g : Graph) (clause : CatchClause) : Prop :=
  ∃ r, clause.type = some r ∧ g.Has .typeId r

/-- The handler can be told from its bytes: every clause has a type except the last one of a handler
that catches everything, and there are no more of them than can be stated. -/
structure Proper (g : Graph) (h : CatchHandler) : Prop where
  types : ∀ clause ∈ h.typed, HasType g clause
  last : h.catchesAll = true → ∃ address, h.clauses.toList = h.typed ++ [⟨none, address⟩]
  ne_nil : h.catchesAll = false → h.typed ≠ []
  length_le : h.typed.length ≤ 2 ^ 31
  length_lt : h.catchesAll = false → h.typed.length < 2 ^ 31

theorem toInt_neg_ofNat {n : Nat} (h : n ≤ 2 ^ 31) : (-Int32.ofNat n).toInt = -n := by
  rw [Int32.toInt_neg, Int32.toInt_ofNat']
  simp [Int.bmod]
  omega

/-- The sign of the stated size says whether everything is caught. -/
theorem Proper.toInt_statedSize {g : Graph} {h : CatchHandler} (hproper : h.Proper g) :
    h.statedSize.toInt = if h.catchesAll then -(h.typed.length : Int) else h.typed.length := by
  unfold statedSize
  cases hall : h.catchesAll with
  | true =>
    obtain ⟨address, hlist⟩ := hproper.last hall
    have hsize : h.clauses.size - 1 = h.typed.length := by
      rw [← Array.length_toList, hlist]
      simp
    simp only [if_true, hsize]
    exact toInt_neg_ofNat hproper.length_le
  | false =>
    have hsize : h.clauses.size = h.typed.length := by simp [typed, hall]
    simp only [Bool.false_eq_true, if_false, hsize]
    exact Int32.toInt_ofNat_of_lt (hproper.length_lt hall)

theorem Proper.natAbs_statedSize {g : Graph} {h : CatchHandler} (hproper : h.Proper g) :
    h.statedSize.toInt.natAbs = h.typed.length := by
  rw [hproper.toInt_statedSize]
  split <;> simp

theorem Proper.statedSize_le_zero_iff {g : Graph} {h : CatchHandler} (hproper : h.Proper g) :
    h.statedSize.toInt ≤ 0 ↔ h.catchesAll = true := by
  rw [hproper.toInt_statedSize]
  cases hall : h.catchesAll with
  | true => simp
  | false =>
    have := List.length_pos_iff.mpr (hproper.ne_nil hall)
    simp only [Bool.false_eq_true, if_false, iff_false]
    omega

/-! ## Handlers are read back -/

theorem eq_of_toList {h : CatchHandler} {all : Bool} {clauses : Array CatchClause}
    (hall : h.catchesAll = all) (hlist : clauses.toList = h.clauses.toList) :
    (⟨all, h.listOffset, clauses⟩ : CatchHandler) = h := by
  rw [← hall, Array.toList_inj.mp hlist]

theorem decodeClause_recovers {g : Graph} {clause : CatchClause} (h : HasType g clause) :
    (decodeClause g).Recovers (clauseBytes clause) clause := by
  obtain ⟨type, address⟩ := clause
  obtain ⟨r, rfl, hr⟩ := h
  refine recovers_unsignedLeb.bind ?_
  rw [← List.append_nil (Leb128.encodeUnsigned address).toList]
  exact recovers_unsignedLeb.bind (recovers_ofExcept_bind (Graph.resolve_slot hr) recovers_pure)

theorem decode_recovers {g : Graph} {h : CatchHandler} (hproper : h.Proper g) :
    (decode g h.listOffset).Recovers h.encode.toList h := by
  rw [toList_encode]
  refine recovers_signedLeb.bind ?_
  have hclauses : (gather h.typed.length (decodeClause g)).Recovers
      (h.typed.flatMap clauseBytes) h.typed.toArray :=
    (recoversEach_flatMap fun clause hc => decodeClause_recovers (hproper.types clause hc)).gather
      List.size_toArray
  simp only [hproper.natAbs_statedSize, hproper.statedSize_le_zero_iff]
  cases hall : h.catchesAll with
  | true =>
    obtain ⟨address, hlist⟩ := hproper.last hall
    have hvalue : (⟨true, h.listOffset, h.typed.toArray.push ⟨none, address⟩⟩ : CatchHandler) = h :=
      eq_of_toList hall (by simp [hlist])
    rw [hlist, List.flatMap_append, List.flatMap_singleton]
    refine hclauses.bind ?_
    rw [if_pos rfl]
    have haddress := (recovers_unsignedLeb (v := address)).map
      (g := fun a => (⟨true, h.listOffset, h.typed.toArray.push ⟨none, a⟩⟩ : CatchHandler))
    rwa [hvalue] at haddress
  | false =>
    have hlist : h.clauses.toList = h.typed := by simp [typed, hall]
    have hvalue : (⟨false, h.listOffset, h.typed.toArray⟩ : CatchHandler) = h :=
      eq_of_toList hall hlist.symm
    rw [hlist, ← List.append_nil (h.typed.flatMap clauseBytes)]
    refine hclauses.bind ?_
    rw [if_neg (by simp), hvalue]
    exact recovers_pure

/-! ## What is read is a handler -/

variable {g : Graph} {data : Bytes} {p q : Nat}

/-- The clauses that are read have types, and each of them is two numbers. -/
theorem exists_of_decodeClauses {clauses : List CatchClause}
    (h : ReadsEach (decodeClause g) data p clauses q) :
    (∀ clause ∈ clauses, HasType g clause) ∧ p + (clauses.flatMap clauseBytes).length ≤ q ∧
      (times (2 * clauses.length) (discard unsignedLeb)).Reads data p () q := by
  induction clauses generalizing p with
  | nil =>
    obtain rfl : q = p := h
    exact ⟨by simp, by simp, reads_pure_iff.mpr ⟨rfl, rfl⟩⟩
  | cons clause rest ih =>
    obtain ⟨r, hclause, hrest⟩ := h
    obtain ⟨htypes, hle, htimes⟩ := ih hrest
    simp only [decodeClause, reads_bind_iff, reads_ofExcept_iff, reads_pure_iff] at hclause
    obtain ⟨index, p₁, hindex, address, p₂, haddress, type, _, ⟨htype, rfl⟩, rfl, rfl⟩ := hclause
    obtain ⟨rfl, hhas⟩ := Graph.resolve_eq_ok_iff.mp htype
    refine ⟨List.forall_mem_cons.mpr ⟨⟨_, rfl, hhas⟩, htypes⟩, ?_, ?_⟩
    · have h₁ := le_of_unsignedLeb hindex
      have h₂ := le_of_unsignedLeb haddress
      simp only [List.flatMap_cons, List.length_append, clauseBytes, Option.map_some,
        Option.getD_some]
      omega
    · exact hindex.discard.bind (haddress.discard.bind htimes)

/-- A handler that is read is one that a graph can have. Its shortest form is no longer than the
bytes from which it is read, and these are passed over where it is not needed. -/
theorem exists_of_decode {o : UInt16} {h : CatchHandler} (hread : (decode g o).Reads data p h q) :
    h.listOffset = o ∧ h.Proper g ∧ p + h.encode.size ≤ q ∧ skip.Reads data p () q := by
  obtain ⟨v, p₁, hsize, hread⟩ := reads_bind_iff.mp hread
  obtain ⟨clauses, p₂, hgather, hread⟩ := reads_bind_iff.mp hread
  obtain ⟨hcount, heach⟩ := reads_gather_iff.mp hgather
  obtain ⟨htypes, hle, htimes⟩ := exists_of_decodeClauses heach
  rw [Array.length_toList, hcount] at htimes
  have hstated := le_of_signedLeb hsize
  have hlow := v.le_toInt
  have hhigh := v.toInt_lt
  have hlength (h : CatchHandler) (hproper : h.Proper g)
      (hv : v.toInt = if h.catchesAll then -(h.typed.length : Int) else h.typed.length) :
      h.encode.size = (Leb128.encodeSigned v).toList.length +
        (h.clauses.toList.flatMap clauseBytes).length := by
    rw [← hproper.toInt_statedSize, Int32.toInt_inj] at hv
    rw [← Array.length_toList, toList_encode, List.length_append, ← hv]
  have hskip (htail : (if v.toInt ≤ 0 then discard unsignedLeb else pure ()).Reads data p₂ () q) :
      skip.Reads data p () q :=
    hsize.bind (htimes.bind htail)
  split at hread
  · rename_i hall
    obtain ⟨address, _, haddress, hpure⟩ := reads_bind_iff.mp hread
    obtain ⟨rfl, rfl⟩ := reads_pure_iff.mp hpure
    have hproper : CatchHandler.Proper g ⟨true, o, clauses.push ⟨none, address⟩⟩ := {
      types := by simpa [typed] using htypes
      last := fun _ => ⟨address, by simp [typed]⟩
      ne_nil := by rintro ⟨⟩
      length_le := by simp [typed]; omega
      length_lt := by rintro ⟨⟩ }
    refine ⟨rfl, hproper, ?_, hskip ?_⟩
    · rw [hlength _ hproper (by simp [typed]; omega)]
      have := le_of_unsignedLeb haddress
      simp only [Array.toList_push, List.flatMap_append, List.flatMap_singleton, List.length_append]
      have hlast : (clauseBytes ⟨none, address⟩).length =
          (Leb128.encodeUnsigned address).toList.length := by simp [clauseBytes]
      omega
    · rw [if_pos hall]
      exact haddress.discard
  · rename_i hall
    obtain ⟨rfl, rfl⟩ := reads_pure_iff.mp hread
    have hproper : CatchHandler.Proper g ⟨false, o, clauses⟩ := {
      types := by simpa [typed] using htypes
      last := by rintro ⟨⟩
      ne_nil := fun _ => by
        rw [← List.length_pos_iff]
        simp [typed]
        omega
      length_le := by simp [typed]; omega
      length_lt := fun _ => by simp [typed]; omega }
    refine ⟨rfl, hproper, ?_, hskip ?_⟩
    · rw [hlength _ hproper (by simp [typed]; omega)]
      dsimp only
      omega
    · rw [if_neg hall]
      exact reads_pure_iff.mpr ⟨rfl, rfl⟩

end CatchHandler

end DexGraph
