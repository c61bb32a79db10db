import DexGraph.Proofs.Bytes.StoredBytes
import DexGraph.Proofs.Format.RowKinds
import DexGraph.Writing.Buffer

/-!
# Outputs as sparse files

A sparse file is an output as those see it who use it: a byte at every position, zero where none
has been stored, a cursor, and the positions that the cursor has reached by storing or skipping, of
which the furthest is the length. `SparseFile.perform` says what each operation on an output does to
such a file.

A buffer *represents* a file if its block of memory holds the bytes of the file, whatever the size
of the block (`Buffer.Represents`). Growing the block does not change that, and every operation
keeps it, so that a buffer shows the cursor, the length and the bytes of the file that the same
operations give (`Buffer.forM_perform_observed`). The stream, which keeps stores in place of a
block, shows the same.
-/

namespace DexGraph

/-! ## Operations and what can be observed -/

/-- An operation on an output. An alignment is a power of two and given by its exponent. -/
inductive OutputStep
  | seek (position : Nat)
  | skip (count : Nat)
  | align (exponent : Nat)
  | write (bytes : Bytes)
  | writeNumber (width : Nat) (v : Int)
  | writeUnsignedLeb (v : UInt32)
  | writeSignedLeb (v : Int32)
  | writeRow (kind : Row.Kind) (row : kind.Record)
  | poke (position : Nat) (byte : UInt8)

/-- What an output shows: the cursor, the length, the bytes written, and the file of any length
that is made of it. -/
@[ext]
structure Observed where
  position : Nat
  length : Nat
  written : Bytes
  file : Nat → Bytes

/-- A byte at every position, a cursor, and the positions that the cursor has reached by storing
or skipping. -/
structure SparseFile where
  byteAt : Nat → UInt8
  position : Nat
  reached : List Nat

namespace SparseFile

/-- The file into which nothing has been written. -/
def blank : SparseFile := ⟨fun _ => 0, 0, []⟩

/-- The furthest position that has been reached. -/
def length (f : SparseFile) : Nat :=
  f.reached.foldr max 0

/-- Passes over some bytes. -/
def skip (f : SparseFile) (count : Nat) : SparseFile :=
  { f with position := f.position + count, reached := (f.position + count) :: f.reached }

/-- Stores bytes at the cursor and passes over them. -/
def write (f : SparseFile) (bytes : Bytes) : SparseFile :=
  { f with byteAt := fun i =>
      if f.position ≤ i then bytes[i - f.position]?.getD (f.byteAt i) else f.byteAt i }.skip
    bytes.size

/-- What an operation does to a file. A byte can be replaced below the length only. -/
def perform (f : SparseFile) : OutputStep → SparseFile
  | .seek position => { f with position := position }
  | .skip count => f.skip count
  | .align exponent => f.skip ((2 ^ exponent - f.position % 2 ^ exponent) % 2 ^ exponent)
  | .write bytes => f.write bytes
  | .writeNumber width v => f.write (LittleEndian.encodeSigned width v).toArray
  | .writeUnsignedLeb v => f.write (Leb128.encodeUnsigned v)
  | .writeSignedLeb v => f.write (Leb128.encodeSigned v)
  | .writeRow _ row => f.write (Row.encode row)
  | .poke position byte =>
    if position < f.length then { f with byteAt := Function.update f.byteAt position byte } else f

/-- The first `n` bytes. -/
def contents (f : SparseFile) (n : Nat) : Bytes :=
  Array.ofFn fun i : Fin n => f.byteAt i

/-- What a file shows. -/
def observed (f : SparseFile) : Observed :=
  ⟨f.position, f.length, f.contents f.length, f.contents⟩

variable {f : SparseFile}

@[simp] theorem length_skip (f : SparseFile) (count : Nat) :
    (f.skip count).length = max (f.position + count) f.length := rfl

@[simp] theorem length_write (f : SparseFile) (bytes : Bytes) :
    (f.write bytes).length = max (f.position + bytes.size) f.length := rfl

theorem getElem?_contents (f : SparseFile) (n i : Nat) :
    (f.contents n)[i]? = if i < n then some (f.byteAt i) else none := by
  rw [contents, Array.getElem?_ofFn]
  split <;> rfl

/-- Past the length there is nothing but zeros. -/
def ZeroTail (f : SparseFile) : Prop :=
  ∀ i, f.length ≤ i → f.byteAt i = 0

theorem zeroTail_blank : blank.ZeroTail :=
  fun _ _ => rfl

theorem ZeroTail.skip (h : f.ZeroTail) (count : Nat) : (f.skip count).ZeroTail := by
  intro i hi
  rw [length_skip] at hi
  exact h i (Nat.le_trans (Nat.le_max_right ..) hi)

theorem ZeroTail.write (h : f.ZeroTail) (bytes : Bytes) : (f.write bytes).ZeroTail := by
  intro i hi
  rw [length_write] at hi
  have hold : f.byteAt i = 0 := h i (Nat.le_trans (Nat.le_max_right ..) hi)
  have hnew : bytes[i - f.position]? = none := Array.getElem?_eq_none (by omega)
  change (if f.position ≤ i then bytes[i - f.position]?.getD (f.byteAt i) else f.byteAt i) = 0
  rw [hnew, hold]
  exact ite_self 0

theorem ZeroTail.perform (h : f.ZeroTail) (step : OutputStep) : (f.perform step).ZeroTail := by
  cases step with
  | seek position => exact h
  | skip count => exact h.skip count
  | align exponent => exact h.skip _
  | write bytes => exact h.write bytes
  | writeNumber width v => exact h.write _
  | writeUnsignedLeb v => exact h.write _
  | writeSignedLeb v => exact h.write _
  | writeRow kind row => exact h.write _
  | poke position byte =>
    rw [SparseFile.perform]
    split
    · rename_i hlt
      intro i hi
      have hi : f.length ≤ i := hi
      change Function.update f.byteAt position byte i = 0
      rw [Function.update_of_ne (by omega), h i hi]
    · exact h

theorem zeroTail_foldl (steps : List OutputStep) : (steps.foldl perform blank).ZeroTail := by
  suffices h : ∀ f : SparseFile, f.ZeroTail → (steps.foldl perform f).ZeroTail from
    h blank zeroTail_blank
  induction steps with
  | nil => exact fun f h => h
  | cons step steps ih => exact fun f h => ih _ (h.perform step)

end SparseFile

/-- The distance to the next multiple of a number. -/
theorem alignUp_sub (n : Nat) {k : Nat} (hk : 0 < k) : alignUp n k - n = (k - n % k) % k := by
  have hn : n % k + k * (n / k) = n := Nat.mod_add_div n k
  have hlt : n % k < k := Nat.mod_lt n hk
  have hquot : (n + k - 1) / k = (n % k + k - 1) / k + n / k := by
    rw [← Nat.add_mul_div_left _ _ hk]
    congr 1
    omega
  have hup : alignUp n k = (n % k + k - 1) / k * k + k * (n / k) := by
    rw [alignUp, hquot, Nat.add_mul, Nat.mul_comm (n / k)]
  by_cases hzero : n % k = 0
  · have hdiv : (n % k + k - 1) / k = 0 := Nat.div_eq_of_lt (by omega)
    rw [hdiv] at hup
    rw [hzero, Nat.sub_zero, Nat.mod_self]
    omega
  · have hdiv : (n % k + k - 1) / k = 1 := Nat.div_eq_of_lt_le (by omega) (by omega)
    rw [hdiv] at hup
    rw [Nat.mod_eq_of_lt (by omega)]
    omega

/-! ## Buffers -/

namespace Buffer

/-- Performs an operation. -/
def perform : OutputStep → EStateM Error Buffer Unit
  | .seek position => modify (·.seek position)
  | .skip count => modify (·.skip count)
  | .align exponent => modify (·.alignTo (2 ^ exponent))
  | .write bytes => modify (·.write bytes)
  | .writeNumber width v => modify (·.writeNumber width v)
  | .writeUnsignedLeb v => modify (·.writeUnsignedLeb v)
  | .writeSignedLeb v => modify (·.writeSignedLeb v)
  | .writeRow _ row => writeRow row
  | .poke position byte => modify (·.poke position byte)

/-- What a buffer shows. -/
def observed (b : Buffer) : Observed :=
  ⟨b.position, b.length, b.written, b.take⟩

/-! ### Growing -/

theorem size_reserve (b : Buffer) (stop : Nat) :
    b.data.size ≤ (b.reserve stop).data.size ∧ stop ≤ (b.reserve stop).data.size := by
  change b.data.size ≤ (grown b.data stop).size ∧ stop ≤ (grown b.data stop).size
  rw [grown]
  split
  · rename_i h
    exact ⟨le_rfl, h⟩
  · rw [Array.size_append, Array.size_replicate]
    omega

/-- The memory that is added holds zeros. -/
theorem getD_data_reserve (b : Buffer) (stop i : Nat) :
    (b.reserve stop).data[i]?.getD 0 = b.data[i]?.getD 0 := by
  change (grown b.data stop)[i]?.getD 0 = b.data[i]?.getD 0
  rw [grown]
  split
  · rfl
  · rw [Array.getElem?_append]
    split
    · rfl
    · rename_i hge
      rw [Array.getElem?_eq_none (Nat.le_of_not_lt hge), Array.getElem?_replicate]
      split <;> rfl

/-- There is always room for a row, which is stored like its bytes. -/
theorem writeRow_eq {α : Type} [Row α] [Row.Readable α] (b : Buffer) (row : α) :
    (writeRow row).run b = .ok () (b.write (Row.encode row)) := by
  obtain ⟨data, position, length⟩ := b
  have hroom := (size_reserve ⟨data, position, length⟩ (position + Row.size α)).2
  have hstore : Row.store _ position row = _ := Row.store_of_le hroom
  change writeRow row _ = .ok () ⟨(grown data (position + (Row.encode row).size)).overlay position
    (Row.encode row), position + (Row.encode row).size,
    max length (position + (Row.encode row).size)⟩
  rw [Row.Readable.size_encode]
  simp only [writeRow, reserve] at hstore ⊢
  rw [hstore]

/-! ### What a buffer represents -/

/-- The block of memory reaches up to the length and holds the bytes of the file, with zeros in
place of the bytes that it does not reach. -/
structure Represents (b : Buffer) (f : SparseFile) : Prop where
  position_eq : b.position = f.position
  length_eq : b.length = f.length
  length_le : b.length ≤ b.data.size
  getD_data : ∀ i, b.data[i]?.getD 0 = f.byteAt i

variable {b : Buffer} {f : SparseFile}

theorem represents_withCapacity (capacity : Nat) :
    (withCapacity capacity).Represents SparseFile.blank where
  position_eq := rfl
  length_eq := rfl
  length_le := Nat.zero_le _
  getD_data i := by
    rw [withCapacity, Array.getElem?_replicate]
    split <;> rfl

theorem Represents.reserve (h : b.Represents f) (stop : Nat) : (b.reserve stop).Represents f where
  position_eq := h.position_eq
  length_eq := h.length_eq
  length_le := h.length_le.trans (size_reserve b stop).1
  getD_data i := (getD_data_reserve b stop i).trans (h.getD_data i)

theorem Represents.seek (h : b.Represents f) (position : Nat) :
    (b.seek position).Represents { f with position := position } :=
  ⟨rfl, h.length_eq, h.length_le, h.getD_data⟩

theorem Represents.skip (h : b.Represents f) (count : Nat) :
    (b.skip count).Represents (f.skip count) := by
  have hsize := size_reserve b (b.position + count)
  refine ⟨?_, ?_, ?_, ?_⟩
  · exact congrArg (· + count) h.position_eq
  · rw [SparseFile.length_skip, ← h.position_eq, ← h.length_eq]
    exact max_comm ..
  · exact Nat.max_le.mpr ⟨h.length_le.trans hsize.1, hsize.2⟩
  · exact (h.reserve _).getD_data

theorem Represents.alignTo (h : b.Represents f) (exponent : Nat) :
    (b.alignTo (2 ^ exponent)).Represents (f.perform (.align exponent)) := by
  rw [Buffer.alignTo, alignUp_sub _ (Nat.two_pow_pos exponent), h.position_eq]
  exact h.skip _

theorem Represents.write (h : b.Represents f) (bytes : Bytes) :
    (b.write bytes).Represents (f.write bytes) := by
  have hsize := size_reserve b (b.position + bytes.size)
  refine ⟨?_, ?_, ?_, fun i => ?_⟩
  · exact congrArg (· + bytes.size) h.position_eq
  · rw [SparseFile.length_write, ← h.position_eq, ← h.length_eq]
    exact max_comm ..
  · refine Nat.le_trans (Nat.max_le.mpr ⟨h.length_le.trans hsize.1, hsize.2⟩) ?_
    exact (Bytes.size_overlay ..).ge
  · change ((b.reserve (b.position + bytes.size)).data.overlay b.position bytes)[i]?.getD 0 =
      if f.position ≤ i then bytes[i - f.position]?.getD (f.byteAt i) else f.byteAt i
    have hold := (h.reserve (b.position + bytes.size)).getD_data i
    rw [Bytes.getElem?_overlay, ← h.position_eq]
    -- inside the bytes, past them, before them
    by_cases hin : b.position ≤ i ∧ i < b.position + bytes.size
    · rw [if_pos (by omega), if_pos hin.1, Array.getElem?_eq_getElem (by omega)]
      rfl
    · rw [if_neg (by omega), hold]
      split
      · rw [Array.getElem?_eq_none (by omega), Option.getD_none]
      · rfl

theorem Represents.poke (h : b.Represents f) (position : Nat) (byte : UInt8) :
    (b.poke position byte).Represents (f.perform (.poke position byte)) := by
  rw [Buffer.poke, SparseFile.perform, ← h.length_eq]
  split
  · rename_i hlt
    have hlength := h.length_le
    refine ⟨h.position_eq, h.length_eq, ?_, fun i => ?_⟩
    · rwa [Array.size_setIfInBounds]
    · change (b.data.setIfInBounds position byte)[i]?.getD 0 =
        Function.update f.byteAt position byte i
      rw [Array.getElem?_setIfInBounds]
      by_cases hi : position = i
      · subst hi
        rw [if_pos rfl, if_pos (by omega), Function.update_self, Option.getD_some]
      · rw [if_neg hi, Function.update_of_ne (Ne.symm hi), h.getD_data]
  · exact h

/-- Every operation on a buffer succeeds and does what it does to the file. -/
theorem Represents.perform (h : b.Represents f) (step : OutputStep) :
    ∃ c, (Buffer.perform step).run b = .ok () c ∧ c.Represents (f.perform step) := by
  cases step with
  | seek position => exact ⟨_, rfl, h.seek position⟩
  | skip count => exact ⟨_, rfl, h.skip count⟩
  | align exponent => exact ⟨_, rfl, h.alignTo exponent⟩
  | write bytes => exact ⟨_, rfl, h.write bytes⟩
  | writeNumber width v => exact ⟨_, rfl, h.write _⟩
  | writeUnsignedLeb v => exact ⟨_, rfl, h.write _⟩
  | writeSignedLeb v => exact ⟨_, rfl, h.write _⟩
  | writeRow kind row => exact ⟨_, writeRow_eq b row, h.write _⟩
  | poke position byte => exact ⟨_, rfl, h.poke position byte⟩

theorem Represents.forM_perform (h : b.Represents f) (steps : List OutputStep) :
    ∃ c, (steps.forM Buffer.perform).run b = .ok () c ∧
      c.Represents (steps.foldl SparseFile.perform f) := by
  induction steps generalizing b f with
  | nil => exact ⟨b, rfl, h⟩
  | cons step steps ih =>
    obtain ⟨c, hstep, hc⟩ := h.perform step
    obtain ⟨e, hsteps, he⟩ := ih hc
    refine ⟨e, ?_, he⟩
    change EStateM.bind (Buffer.perform step) (fun _ => steps.forM Buffer.perform) b = _
    have hstep : Buffer.perform step b = .ok () c := hstep
    rw [EStateM.bind, hstep]
    exact hsteps

/-- The first bytes of a buffer are those of the file. -/
theorem Represents.take_eq (h : b.Represents f) (n : Nat) : b.take n = f.contents n := by
  have hsize := (size_reserve b n).2
  apply Array.ext_getElem?
  intro i
  rw [take, Array.getElem?_extract, SparseFile.getElem?_contents, Nat.sub_zero, Nat.zero_add]
  by_cases hi : i < n
  · have hget := (h.reserve n).getD_data i
    rw [Array.getElem?_eq_getElem (by omega), Option.getD_some] at hget
    rw [if_pos (by omega), if_pos hi, Array.getElem?_eq_getElem (by omega), hget]
  · rw [if_neg (by omega), if_neg hi]

theorem Represents.written_eq (h : b.Represents f) : b.written = f.contents f.length := by
  have hsame : grown b.data b.length = b.data := if_pos h.length_le
  calc b.written = (grown b.data b.length).extract 0 b.length := by rw [hsame, written]
    _ = f.contents f.length := by rw [← h.length_eq]; exact h.take_eq b.length

/-- A buffer shows what the file shows. -/
theorem Represents.observed_eq (h : b.Represents f) : b.observed = f.observed :=
  Observed.ext h.position_eq h.length_eq h.written_eq (funext h.take_eq)

end Buffer

/-! ## Streams -/

namespace Stream

/-- Performs an operation. -/
def perform (s : Stream) : OutputStep → Stream
  | .seek position => s.seek position
  | .skip count => s.skip count
  | .align exponent => s.alignTo (2 ^ exponent)
  | .write bytes => s.write bytes
  | .writeNumber width v => s.write (LittleEndian.encodeSigned width v).toArray
  | .writeUnsignedLeb v => s.write (Leb128.encodeUnsigned v)
  | .writeSignedLeb v => s.write (Leb128.encodeSigned v)
  | .writeRow _ row => s.write (Row.encode row)
  | .poke position byte => s.poke position byte

/-- What a stream shows. -/
def observed (s : Stream) : Observed :=
  ⟨s.position, s.length, s.toBytes, s.contents⟩

/-- The stores, over zeros, are the bytes of the file. -/
structure Represents (s : Stream) (f : SparseFile) : Prop where
  position_eq : s.position = f.position
  length_eq : s.length = f.length
  getD_byteAt? : ∀ i, (s.byteAt? i).getD 0 = f.byteAt i

variable {s : Stream} {f : SparseFile}

theorem represents_empty : (∅ : Stream).Represents SparseFile.blank :=
  ⟨rfl, rfl, fun _ => rfl⟩

theorem Represents.seek (h : s.Represents f) (position : Nat) :
    (s.seek position).Represents { f with position := position } :=
  ⟨rfl, h.length_eq, h.getD_byteAt?⟩

theorem Represents.skip (h : s.Represents f) (count : Nat) :
    (s.skip count).Represents (f.skip count) where
  position_eq := congrArg (· + count) h.position_eq
  length_eq := by
    rw [length_skip, SparseFile.length_skip, h.position_eq, h.length_eq]
    exact max_comm ..
  getD_byteAt? := h.getD_byteAt?

theorem Represents.alignTo (h : s.Represents f) (exponent : Nat) :
    (s.alignTo (2 ^ exponent)).Represents (f.perform (.align exponent)) := by
  rw [Stream.alignTo, alignUp_sub _ (Nat.two_pow_pos exponent), h.position_eq]
  exact h.skip _

theorem Represents.write (h : s.Represents f) (bytes : Bytes) :
    (s.write bytes).Represents (f.write bytes) where
  position_eq := congrArg (· + bytes.size) h.position_eq
  length_eq := by
    rw [length_write, SparseFile.length_write, h.position_eq, h.length_eq]
    exact max_comm ..
  getD_byteAt? i := by
    change _ = if f.position ≤ i then bytes[i - f.position]?.getD (f.byteAt i) else f.byteAt i
    rw [byteAt?_write, h.position_eq, ← h.getD_byteAt?]
    split
    · cases bytes[i - f.position]? <;> rfl
    · rfl

theorem byteAt?_poke (s : Stream) (position : Nat) (byte : UInt8) (i : Nat) :
    (s.poke position byte).byteAt? i =
      if position < s.length ∧ i = position then some byte else s.byteAt? i := by
  rw [Stream.poke]
  by_cases hlt : position < s.length
  · rw [if_pos hlt, byteAt?, Array.foldl_push, Store.byteAt?]
    change Option.or _ (s.byteAt? i) = _
    by_cases hi : i = position
    · simp [hlt, hi]
    · have hnone : (if position ≤ i then (#[byte] : Bytes)[i - position]? else none) = none := by
        split
        · exact Array.getElem?_eq_none (by change 1 ≤ i - position; omega)
        · rfl
      rw [hnone, Option.none_or, if_neg (fun h => hi h.2)]
  · rw [if_neg hlt, if_neg (fun h => hlt h.1)]

theorem Represents.poke (h : s.Represents f) (position : Nat) (byte : UInt8) :
    (s.poke position byte).Represents (f.perform (.poke position byte)) := by
  have hposition : (s.poke position byte).position = s.position := by
    rw [Stream.poke]
    split <;> rfl
  have hlength : (s.poke position byte).length = s.length := by
    rw [Stream.poke]
    split <;> rfl
  rw [SparseFile.perform, ← h.length_eq]
  refine ⟨?_, ?_, fun i => ?_⟩
  · rw [hposition, h.position_eq]
    split <;> rfl
  · rw [hlength, h.length_eq]
    split <;> rfl
  · rw [byteAt?_poke]
    by_cases hlt : position < s.length
    · rw [if_pos hlt]
      change _ = Function.update f.byteAt position byte i
      by_cases hi : i = position
      · rw [if_pos ⟨hlt, hi⟩, hi, Function.update_self, Option.getD_some]
      · rw [if_neg (fun h => hi h.2), Function.update_of_ne hi, h.getD_byteAt?]
    · rw [if_neg hlt, if_neg (fun h => hlt h.1), h.getD_byteAt?]

theorem Represents.perform (h : s.Represents f) (step : OutputStep) :
    (s.perform step).Represents (f.perform step) := by
  cases step with
  | seek position => exact h.seek position
  | skip count => exact h.skip count
  | align exponent => exact h.alignTo exponent
  | write bytes => exact h.write bytes
  | writeNumber width v => exact h.write _
  | writeUnsignedLeb v => exact h.write _
  | writeSignedLeb v => exact h.write _
  | writeRow kind row => exact h.write _
  | poke position byte => exact h.poke position byte

theorem Represents.foldl_perform (h : s.Represents f) (steps : List OutputStep) :
    (steps.foldl Stream.perform s).Represents (steps.foldl SparseFile.perform f) := by
  induction steps generalizing s f with
  | nil => exact h
  | cons step steps ih => exact ih (h.perform step)

theorem Represents.contents_eq (h : s.Represents f) (n : Nat) : s.contents n = f.contents n := by
  apply Array.ext_getElem?
  intro i
  rw [Stream.getElem?_contents, SparseFile.getElem?_contents, h.getD_byteAt?]

theorem Represents.toBytes_eq (h : s.Represents f) : s.toBytes = f.contents f.length := by
  rw [← h.length_eq]
  exact h.contents_eq s.length

/-- A stream shows what the file shows. -/
theorem Represents.observed_eq (h : s.Represents f) : s.observed = f.observed :=
  Observed.ext h.position_eq h.length_eq h.toBytes_eq (funext h.contents_eq)

end Stream

/-- **An output is a sparse file.** From whatever capacity a buffer starts, any operations on it
succeed, and it shows what the sparse file shows on which they are performed; a stream shows the
same. The block of memory reaches up to the length and holds zeros past it, and growing it shows
nowhere. Moving the cursor alone leaves everything else as it is, and passing over bytes keeps
them. Positions are numbers without a bound. -/
theorem Buffer.forM_perform_observed (capacity : Nat) (steps : List OutputStep) :
    ∃ b, (steps.forM Buffer.perform).run (withCapacity capacity) = .ok () b ∧
      b.observed = (steps.foldl SparseFile.perform SparseFile.blank).observed ∧
      (steps.foldl Stream.perform ∅).observed =
        (steps.foldl SparseFile.perform SparseFile.blank).observed ∧
      b.length ≤ b.data.size ∧
      (∀ i, b.length ≤ i → b.data[i]?.getD 0 = 0) ∧
      (∀ stop, (b.reserve stop).observed = b.observed) ∧
      (∀ position, (b.seek position).observed = { b.observed with position := position }) ∧
      ∀ position count, ((b.seek position).skip count).take = b.take := by
  obtain ⟨b, hrun, h⟩ := (represents_withCapacity capacity).forM_perform steps
  refine ⟨b, hrun, h.observed_eq, (Stream.represents_empty.foldl_perform steps).observed_eq,
    h.length_le, fun i hi => ?_, fun stop => ?_, fun position => ?_, fun position count => ?_⟩
  · rw [h.getD_data]
    exact SparseFile.zeroTail_foldl steps i (h.length_eq ▸ hi)
  · rw [(h.reserve stop).observed_eq, h.observed_eq]
  · rfl
  · exact funext fun n => (((h.seek position).skip count).take_eq n).trans (h.take_eq n).symm

end DexGraph
