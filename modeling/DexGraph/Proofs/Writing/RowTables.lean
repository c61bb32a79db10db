import DexGraph.Proofs.Writing.SparseFile

/-!
# Rows and headers written and read back

Rows that are written one after the other stand one after the other, whatever was written before:
each write keeps this for the rows so far and adds one (`SparseFile.HoldsRows.writeRow`). A row is
then read by its index as it was written, and what is written of a row that was read somewhere has
the bytes that were read, with zeros in the reserved places. The same holds of the file header,
which has no reserved places. `rows_and_header_roundTrip` says both, and that what does not fit is
out of bounds.
-/

namespace DexGraph

open Row (Kind)

/-! ## Rows one after the other -/

variable {kind : Kind}

/-- Rows of a kind stand one after the other from a position on, with the cursor behind them. -/
structure SparseFile.HoldsRows (f : SparseFile) (start : Nat) (rows : List kind.Record) :
    Prop where
  position_eq : f.position = start + rows.length * Row.size kind.Record
  position_le : rows ≠ [] → f.position ≤ f.length
  byteAt_eq : ∀ (i : Nat) (row : kind.Record), rows[i]? = some row →
    ∀ (j : Nat) (b : UInt8), (Row.encode row)[j]? = some b →
      f.byteAt (start + i * Row.size kind.Record + j) = b

/-- The bytes of a row lie before the end of the table. -/
private theorem place_lt {i j n size : Nat} (hi : i < n) (hj : j < size) :
    i * size + j < n * size := by
  have hrows : (i + 1) * size ≤ n * size := Nat.mul_le_mul_right size hi
  rw [Nat.add_mul, Nat.one_mul] at hrows
  omega

namespace SparseFile.HoldsRows

variable {f : SparseFile} {start : Nat} {rows : List kind.Record}

theorem nil (f : SparseFile) : f.HoldsRows f.position ([] : List kind.Record) where
  position_eq := by simp
  position_le h := absurd rfl h
  byteAt_eq i row hi := by simp at hi

/-- Writing a row adds it to the rows. -/
theorem writeRow (h : f.HoldsRows start rows) (row : kind.Record) :
    (f.perform (.writeRow kind row)).HoldsRows start (rows ++ [row]) := by
  have hsize : (Row.encode row).size = Row.size kind.Record := Row.Readable.size_encode row
  refine ⟨?_, fun _ => ?_, fun i other hi j b hj => ?_⟩
  · change f.position + (Row.encode row).size = _
    rw [h.position_eq, hsize, List.length_append, List.length_singleton, Nat.add_mul, Nat.one_mul,
      Nat.add_assoc]
  · exact Nat.le_max_left ..
  · have hlt : j < Row.size kind.Record := by
      rw [← Row.Readable.size_encode other]
      exact (Array.getElem?_eq_some_iff.mp hj).1
    change (if f.position ≤ start + i * Row.size kind.Record + j then _ else _) = b
    -- one of the rows so far, or the one that is written
    by_cases hold : i < rows.length
    · have hplace := place_lt hold hlt
      rw [List.getElem?_append_left hold] at hi
      rw [if_neg (by rw [h.position_eq]; omega)]
      exact h.byteAt_eq i other hi j b hj
    · rw [List.getElem?_append_right (Nat.le_of_not_lt hold), List.getElem?_singleton] at hi
      split at hi
      · rename_i hzero
        obtain rfl : row = other := Option.some.inj hi
        obtain rfl : i = rows.length := by omega
        rw [if_pos (by rw [h.position_eq]; omega), h.position_eq, Nat.add_sub_cancel_left, hj]
        rfl
      · cases hi

theorem foldl_writeRow (h : f.HoldsRows start rows) (more : List kind.Record) :
    ((more.map (.writeRow kind)).foldl perform f).HoldsRows start (rows ++ more) := by
  induction more generalizing f rows with
  | nil => simpa using h
  | cons row more ih => simpa using ih (h.writeRow row)

/-- A row is among the bytes of the file. -/
theorem holdsAt (h : f.HoldsRows start rows) {i : Nat} {row : kind.Record}
    (hi : rows[i]? = some row) :
    (f.contents f.length).HoldsAt (start + i * Row.size kind.Record) (Row.encode row).toList := by
  intro j b hj
  rw [Array.getElem?_toList] at hj
  have hrow : i < rows.length := (List.getElem?_eq_some_iff.mp hi).1
  have hlt : j < Row.size kind.Record := by
    rw [← Row.Readable.size_encode row]
    exact (Array.getElem?_eq_some_iff.mp hj).1
  have hplace := place_lt hrow hlt
  have hlength := h.position_le (List.ne_nil_of_length_pos (Nat.zero_lt_of_lt hrow))
  rw [h.position_eq] at hlength
  rw [getElem?_contents, if_pos (by omega), h.byteAt_eq i row hi j b hj]

end SparseFile.HoldsRows

/-! ## Reading and storing a row -/

namespace Row

open Decoder

/-- Writing rows of a kind one after the other from an offset on, behind what is written before. -/
def writingTable (before : List OutputStep) (table : UInt32) (rows : List kind.Record) :
    List OutputStep :=
  before ++ .seek table.toNat :: rows.map (.writeRow kind)

/-- How rows of a kind are written, stored and read. -/
structure Kind.RoundTrips (kind : Kind) : Prop where
  /-- Rows that are written one after the other from an offset on, whatever has been written before,
  move the cursor by the size of a row each. Each of them is read by its index; if it has been read
  from somewhere, it has the bytes from there, with zeros in the reserved places. -/
  written : ∀ (capacity : Nat) (before : List OutputStep) (table : UInt32)
    (rows : List kind.Record), ∃ b,
      ((writingTable before table rows).forM Buffer.perform).run (.withCapacity capacity) =
        .ok () b ∧
      b.position = table.toNat + rows.length * size kind.Record ∧
      ∀ (index : UInt32) (row : kind.Record), rows[index.toNat]? = some row →
        decodeAt b.written table index = .ok row ∧
        ∀ (source : Bytes) (table' index' : UInt32), decodeAt source table' index' = .ok row →
          ∀ j < size kind.Record,
            b.written[table.toNat + index.toNat * size kind.Record + j]? =
              if j ∈ kind.reserved then some 0
              else source[table'.toNat + index'.toNat * size kind.Record + j]?
  /-- A row that fits into a byte string is stored and read back. -/
  stored : ∀ (buffer : Bytes) (p : Nat) (row : kind.Record),
    p + size kind.Record ≤ buffer.size →
      (store buffer p row).failure = none ∧
      (store buffer p row).position = p + size kind.Record ∧
      decode.runAt (store buffer p row).buffer p = .ok (row, p + size kind.Record)
  /-- A row that does not fit is out of bounds. -/
  not_stored : ∀ (buffer : Bytes) (p : Nat) (row : kind.Record),
    buffer.size < p + size kind.Record → (store buffer p row).failure = some .outOfBounds
  /-- A row is read if it is there. -/
  read_iff : ∀ (data : Bytes) (table index : UInt32),
    (∃ row : kind.Record, decodeAt data table index = .ok row) ↔
      table.toNat + index.toNat * size kind.Record + size kind.Record ≤ data.size
  /-- A row that is not there, or not in full, is out of bounds. -/
  outOfBounds_iff : ∀ (data : Bytes) (table index : UInt32),
    (decodeAt data table index : Except Error kind.Record) = .error .outOfBounds ↔
      data.size < table.toNat + index.toNat * size kind.Record + size kind.Record

variable {α : Type} [Row α] {data : Bytes} {table index : UInt32}

theorem decodeAt_eq_ok_iff {row : α} : decodeAt data table index = .ok row ↔
    ∃ q, Reads decode data (table.toNat + index.toNat * size α) row q := by
  rw [decodeAt, Except.bind_eq_ok_iff]
  constructor
  · rintro ⟨⟨_, q⟩, h, ⟨⟩⟩
    exact ⟨q, h⟩
  · rintro ⟨q, h⟩
    exact ⟨_, h, rfl⟩

theorem decodeAt_eq_error_iff {e : Error} :
    (decodeAt data table index : Except Error α) = .error e ↔
      (decode : Decoder α).runAt data (table.toNat + index.toNat * size α) = .error e := by
  rw [decodeAt]
  cases (decode : Decoder α).runAt data (table.toNat + index.toNat * size α) with
  | error e' => exact ⟨fun | rfl => rfl, fun | rfl => rfl⟩
  | ok r => exact ⟨nofun, nofun⟩

theorem Kind.exists_decodeAt_iff (kind : Kind) :
    (∃ row : kind.Record, decodeAt data table index = .ok row) ↔
      table.toNat + index.toNat * size kind.Record + size kind.Record ≤ data.size := by
  constructor
  · rintro ⟨row, hrow⟩
    by_contra hlt
    have herror := (kind.spans_decode.runAt_eq_error_iff data _).mpr (Nat.lt_of_not_le hlt)
    cases hrow.symm.trans (decodeAt_eq_error_iff.mpr herror)
  · intro hle
    obtain ⟨row, hrow⟩ := (kind.spans_decode data _).1 hle
    exact ⟨row, decodeAt_eq_ok_iff.mpr ⟨_, hrow⟩⟩

theorem Kind.written_rows (kind : Kind) (capacity : Nat) (before : List OutputStep)
    (table : UInt32) (rows : List kind.Record) : ∃ b,
      ((writingTable before table rows).forM Buffer.perform).run (.withCapacity capacity) =
        .ok () b ∧
      b.position = table.toNat + rows.length * size kind.Record ∧
      ∀ (i : Nat) (row : kind.Record), rows[i]? = some row →
        b.written.HoldsAt (table.toNat + i * size kind.Record) (encode row).toList := by
  obtain ⟨b, hrun, h⟩ := (Buffer.represents_withCapacity capacity).forM_perform
    (writingTable before table rows)
  have hrows : ((writingTable before table rows).foldl SparseFile.perform .blank).HoldsRows
      table.toNat rows := by
    rw [writingTable, List.foldl_append, List.foldl_cons]
    exact (SparseFile.HoldsRows.nil _).foldl_writeRow rows
  refine ⟨b, hrun, h.position_eq.trans hrows.position_eq, fun i row hi => ?_⟩
  rw [h.written_eq]
  exact hrows.holdsAt hi

theorem Kind.roundTrips (kind : Kind) : kind.RoundTrips where
  written capacity before table rows := by
    obtain ⟨b, hrun, hposition, hrows⟩ := kind.written_rows capacity before table rows
    refine ⟨b, hrun, hposition, fun index row hrow => ?_⟩
    have hat := hrows index.toNat row hrow
    refine ⟨decodeAt_eq_ok_iff.mpr ⟨_, Readable.reads hat⟩, ?_⟩
    intro source table' index' hread j hj
    obtain ⟨q, hread⟩ := decodeAt_eq_ok_iff.mp hread
    have hlt : j < (encode row).toList.length := by
      rwa [Array.length_toList, Readable.size_encode]
    rw [← kind.getElem?_encode hread hj, hat.getElem?_eq hlt, Array.getElem?_toList]
  stored buffer p row hle := by
    rw [store_of_le hle]
    refine ⟨rfl, rfl, Readable.reads (Bytes.holdsAt_overlay ?_)⟩
    rwa [Readable.size_encode]
  not_stored buffer p row hlt := failure_store_of_lt kind.size_pos hlt
  read_iff data table index := kind.exists_decodeAt_iff
  outOfBounds_iff data table index :=
    decodeAt_eq_error_iff.trans (kind.spans_decode.runAt_eq_error_iff data _)

end Row

/-! ## The file header -/

namespace Decoder

theorem spans_vector (n : Nat) : (vector n).Spans n := by
  intro data p
  constructor
  · intro hle
    obtain ⟨part, hpart⟩ := (spans_bytes n data p).1 hle
    have hsize := (reads_bytes_iff.mp hpart).2.1
    refine ⟨⟨part, hsize⟩, hpart.bind ?_⟩
    rw [dif_pos hsize]
    exact reads_pure_iff.mpr ⟨rfl, rfl⟩
  · intro hlt
    rw [vector, runAt_bind, (spans_bytes n data p).2 hlt]

theorem spans_range : range.Spans 8 :=
  spans_word.bind fun _ => spans_word.map

end Decoder

namespace FileHeader

open Decoder

/-- A header takes 112 bytes. -/
theorem spans_decode : decode.Spans byteSize :=
  (spans_vector 8).bind fun _ => spans_word.bind fun _ => (spans_vector 20).bind fun _ =>
    spans_word.bind fun _ => spans_word.bind fun _ => spans_word.bind fun _ =>
    spans_range.bind fun _ => spans_word.bind fun _ => spans_range.bind fun _ =>
    spans_range.bind fun _ => spans_range.bind fun _ => spans_range.bind fun _ =>
    spans_range.bind fun _ => spans_range.bind fun _ => spans_range.map

/-- How a header is stored and read. -/
structure RoundTrips : Prop where
  /-- A header that is stored is read back; behind it everything stays as it was. -/
  read_stored : ∀ (header : FileHeader) (buffer : Bytes), 0x70 ≤ buffer.size →
    ∃ out, header.store buffer = .ok out ∧ read out = .ok header ∧ out.size = buffer.size ∧
      ∀ i, 0x70 ≤ i → out[i]? = buffer[i]?
  /-- A header is read from 112 bytes and stored as these. -/
  stored_read : ∀ data buffer : Bytes, 0x70 ≤ data.size → 0x70 ≤ buffer.size →
    ∃ header out, read data = .ok header ∧ header.store buffer = .ok out ∧
      ∀ i < 0x70, out[i]? = data[i]?
  /-- A header that is not there in full is out of bounds. -/
  read_outOfBounds_iff : ∀ data : Bytes, read data = .error .outOfBounds ↔ data.size < 0x70
  /-- A header that does not fit is out of bounds. -/
  store_outOfBounds_iff : ∀ (header : FileHeader) (buffer : Bytes),
    header.store buffer = .error .outOfBounds ↔ buffer.size < 0x70

theorem read_eq_error_iff {data : Bytes} {e : Error} :
    read data = .error e ↔ decode.runAt data 0 = .error e := by
  rw [read]
  cases decode.runAt data 0 with
  | error e' => exact ⟨fun | rfl => rfl, fun | rfl => rfl⟩
  | ok r => exact ⟨nofun, nofun⟩

theorem roundTrips : RoundTrips where
  read_stored header buffer hle := by
    refine ⟨_, store_eq_ok_iff.mpr ⟨hle, rfl⟩, ?_, Bytes.size_overlay .., fun i hi => ?_⟩
    · refine read_eq_ok_iff.mpr (Bytes.holdsAt_overlay ?_)
      rwa [Nat.zero_add, size_encode]
    · have hlast : ¬ i < 0 + byteSize := Nat.not_lt.mpr (by rwa [Nat.zero_add])
      rw [Bytes.getElem?_overlay, size_encode, if_neg (fun h => hlast h.2.1)]
  stored_read data buffer hdata hbuffer := by
    obtain ⟨header, hheader⟩ := (spans_decode data 0).1 (by rwa [Nat.zero_add])
    have hat := (reads_decode_iff.mp hheader).1
    refine ⟨header, _, read_eq_ok_iff.mpr hat, store_eq_ok_iff.mpr ⟨hbuffer, rfl⟩, fun i hi => ?_⟩
    have hbyte := hat.getElem?_eq (i := i) (by rwa [Array.length_toList, size_encode])
    rw [Nat.zero_add, Array.getElem?_toList] at hbyte
    rw [Bytes.getElem?_overlay, size_encode, if_pos (by simp only [byteSize]; omega), Nat.sub_zero,
      hbyte]
  read_outOfBounds_iff data := by
    rw [read_eq_error_iff, spans_decode.runAt_eq_error_iff, Nat.zero_add]
    rfl
  store_outOfBounds_iff header buffer := by
    rw [store]
    split <;> simp_all [byteSize]

end FileHeader

/-- **Rows and headers round-trip.** Of every kind, rows that are written one after the other are
read back by their indices, at whatever offset their table starts; a row that was read and is
written has the bytes that were read, except for zeros in its reserved places. A header that is
stored is read back, and one that is read is stored as the bytes it was read from. A row or a header
that does not fit, or is not there in full, is out of bounds. -/
theorem rows_and_header_roundTrip : (∀ kind : Kind, kind.RoundTrips) ∧ FileHeader.RoundTrips :=
  ⟨Kind.roundTrips, FileHeader.roundTrips⟩

end DexGraph
