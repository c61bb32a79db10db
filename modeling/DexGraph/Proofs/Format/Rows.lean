import DexGraph.Format.FileHeader
import DexGraph.Format.MapList
import DexGraph.Proofs.Bytes.Reads
import DexGraph.Proofs.Codec.Concat

/-!
# Reading rows, headers and map lists

What is stored of a row, of the file header or of the map list is read back as it was
(`Row.Readable`, `FileHeader.read_eq_ok_iff`, `MapList.read_encode`). A row without reserved fields
is read only where its bytes are (`Row.Exact`).
-/

namespace DexGraph

/-! ## Rows -/

namespace Row

/-- A row is read where its bytes are. -/
class Readable (α : Type) [Row α] : Prop where
  size_encode : ∀ a : α, (encode a).size = size α
  reads : ∀ {data : Bytes} {p : Nat} {a : α}, data.HoldsAt p (encode a).toList →
    Decoder.Reads decode data p a (p + size α)

/-- A row is read only where its bytes are: every byte of it counts. -/
class Exact (α : Type) [Row α] : Prop extends Readable α where
  holdsAt : ∀ {data : Bytes} {p q : Nat} {a : α}, Decoder.Reads decode data p a q →
    data.HoldsAt p (encode a).toList ∧ q = p + size α

/-- The bytes of a row are those of its fields. -/
theorem toList_encode {α : Type} [Row α] (a : α) :
    (encode a).toList = (fields a).flatMap Array.toList := by
  have hfold (fs : List Bytes) (start : Bytes) :
      (fs.foldl (· ++ ·) start).toList = start.toList ++ fs.flatMap Array.toList := by
    induction fs generalizing start with
    | nil => simp
    | cons f fs ih => simp [ih]
  rw [encode, hfold]
  rfl

variable {data : Bytes} {p q : Nat}

private theorem exact_of_reads_iff {α : Type} [Row α]
    (h : ∀ (data : Bytes) (p q : Nat) (a : α), Decoder.Reads decode data p a q ↔
      data.HoldsAt p ((fields a).flatMap Array.toList) ∧ q = p + size α)
    (hsize : ∀ a : α, ((fields a).flatMap Array.toList).length = size α) : Exact α where
  size_encode a := by rw [← Array.length_toList, toList_encode, hsize]
  reads {data p a} hat := (h data p _ a).mpr ⟨toList_encode a ▸ hat, rfl⟩
  holdsAt {data p q a} hreads := by
    rw [toList_encode]
    exact (h data p q a).mp hreads

instance : Exact StringIdRow := exact_of_reads_iff
  (fun _ _ _ ⟨_⟩ => by
    simp [-bind_pure_comp, decode, fields, size, Decoder.reads_word_bind_iff,
      Decoder.reads_pure_iff])
  fun _ => by simp [fields, size]

instance : Exact TypeIdRow := exact_of_reads_iff
  (fun _ _ _ ⟨_⟩ => by
    simp [-bind_pure_comp, decode, fields, size, Decoder.reads_word_bind_iff,
      Decoder.reads_pure_iff])
  fun _ => by simp [fields, size]

instance : Exact ProtoIdRow := exact_of_reads_iff
  (fun _ _ _ ⟨_, _, _⟩ => by
    simp [-bind_pure_comp, decode, fields, size, Decoder.reads_word_bind_iff,
      Decoder.reads_pure_iff, Bytes.holdsAt_append, and_assoc, Nat.add_assoc])
  fun _ => by simp [fields, size]

instance : Exact FieldIdRow := exact_of_reads_iff
  (fun _ _ _ ⟨_, _, _⟩ => by
    simp [-bind_pure_comp, decode, fields, size, Decoder.reads_word_bind_iff,
      Decoder.reads_halfWord_bind_iff, Decoder.reads_pure_iff, Bytes.holdsAt_append, and_assoc,
      Nat.add_assoc])
  fun _ => by simp [fields, size]

instance : Exact MethodIdRow := exact_of_reads_iff
  (fun _ _ _ ⟨_, _, _⟩ => by
    simp [-bind_pure_comp, decode, fields, size, Decoder.reads_word_bind_iff,
      Decoder.reads_halfWord_bind_iff, Decoder.reads_pure_iff, Bytes.holdsAt_append, and_assoc,
      Nat.add_assoc])
  fun _ => by simp [fields, size]

instance : Exact ClassDefRow := exact_of_reads_iff
  (fun _ _ _ ⟨_, _, _, _, _, _, _, _⟩ => by
    simp [-bind_pure_comp, decode, fields, size, Decoder.reads_word_bind_iff,
      Decoder.reads_pure_iff, Bytes.holdsAt_append, and_assoc, Nat.add_assoc])
  fun _ => by simp [fields, size]

instance : Exact CallSiteIdRow := exact_of_reads_iff
  (fun _ _ _ ⟨_⟩ => by
    simp [-bind_pure_comp, decode, fields, size, Decoder.reads_word_bind_iff,
      Decoder.reads_pure_iff])
  fun _ => by simp [fields, size]

/-- The reserved fields of a method handle may hold anything. -/
theorem reads_methodHandleRow_iff {a : MethodHandleRow} :
    Decoder.Reads decode data p a q ↔ data.HoldsAt p (Bytes.ofHalfWord a.kind).toList ∧
      (∃ v, data.HoldsAt (p + 2) (Bytes.ofHalfWord v).toList) ∧
      data.HoldsAt (p + 4) (Bytes.ofHalfWord a.target).toList ∧
      (∃ v, data.HoldsAt (p + 6) (Bytes.ofHalfWord v).toList) ∧ q = p + 8 := by
  cases a
  simp [-bind_pure_comp, decode, Decoder.reads_halfWord_bind_iff, Decoder.reads_pure_iff, and_assoc,
    Nat.add_assoc]

instance : Readable MethodHandleRow where
  size_encode _ := by simp [encode, fields, size]
  reads hat := by
    rw [toList_encode] at hat
    simp only [fields, List.flatMap_cons, List.flatMap_nil, List.append_nil, Bytes.holdsAt_append,
      Array.length_toList, Bytes.size_ofHalfWord, Nat.add_assoc] at hat
    exact reads_methodHandleRow_iff.mpr ⟨hat.1, ⟨0, hat.2.1⟩, hat.2.2.1, ⟨0, hat.2.2.2⟩, rfl⟩

/-- The reserved field of an entry of the map list may hold anything. -/
theorem reads_mapEntry_iff {a : MapEntry} :
    Decoder.Reads decode data p a q ↔ data.HoldsAt p (Bytes.ofHalfWord a.code).toList ∧
      (∃ v, data.HoldsAt (p + 2) (Bytes.ofHalfWord v).toList) ∧
      data.HoldsAt (p + 4) (Bytes.ofWord a.size).toList ∧
      data.HoldsAt (p + 8) (Bytes.ofWord a.offset).toList ∧ q = p + 12 := by
  cases a
  simp [-bind_pure_comp, decode, Decoder.reads_halfWord_bind_iff, Decoder.reads_word_bind_iff,
    Decoder.reads_pure_iff, and_assoc, Nat.add_assoc]

instance : Readable MapEntry where
  size_encode _ := by simp [encode, fields, size]
  reads hat := by
    rw [toList_encode] at hat
    simp only [fields, List.flatMap_cons, List.flatMap_nil, List.append_nil, Bytes.holdsAt_append,
      Array.length_toList, Bytes.size_ofHalfWord, Bytes.size_ofWord, Nat.add_assoc] at hat
    exact reads_mapEntry_iff.mpr ⟨hat.1, ⟨0, hat.2.1⟩, hat.2.2.1, hat.2.2.2, rfl⟩

end Row

/-! ## The file header -/

variable {data : Bytes} {p q r : Nat}

namespace Decoder

variable {β : Type}

theorem reads_vector_bind_iff {n : Nat} (hn : n ≠ 0) {f : Vector UInt8 n → Decoder β} {b : β} :
    (vector n >>= f).Reads data p b r ↔
      ∃ v, data.HoldsAt p v.toArray.toList ∧ (f v).Reads data (p + n) b r := by
  have hvector {v : Vector UInt8 n} {q : Nat} : (vector n).Reads data p v q ↔
      data.HoldsAt p v.toArray.toList ∧ q = p + n := by
    simp only [vector, reads_bind_iff, reads_bytes_iff]
    constructor
    · rintro ⟨part, _, ⟨hat, hsize, -, rfl⟩, h⟩
      rw [dif_pos hsize, reads_pure_iff] at h
      obtain ⟨rfl, rfl⟩ := h
      exact ⟨hat, rfl⟩
    · rintro ⟨hat, rfl⟩
      refine ⟨v.toArray, _, ⟨hat, v.size_toArray, ?_, rfl⟩, ?_⟩
      · have hle := hat.add_length_le (by simpa [← List.length_eq_zero_iff] using hn)
        rwa [Array.length_toList, v.size_toArray] at hle
      · rw [dif_pos v.size_toArray]
        exact reads_pure_iff.mpr ⟨rfl, rfl⟩
  simp only [reads_bind_iff, hvector]
  constructor
  · rintro ⟨v, _, ⟨h, rfl⟩, h'⟩
    exact ⟨v, h, h'⟩
  · rintro ⟨v, h, h'⟩
    exact ⟨v, _, ⟨h, rfl⟩, h'⟩

theorem reads_range_bind_iff {f : SectionRange → Decoder β} {b : β} :
    (range >>= f).Reads data p b r ↔
      ∃ v, data.HoldsAt p v.encode.toList ∧ (f v).Reads data (p + 8) b r := by
  rw [range, bind_assoc, reads_word_bind_iff]
  simp only [bind_assoc, pure_bind, reads_word_bind_iff, SectionRange.encode, Array.toList_append,
    Bytes.holdsAt_append, Array.length_toList, Bytes.size_ofWord]
  constructor
  · rintro ⟨size, hsize, offset, hoffset, h⟩
    exact ⟨⟨size, offset⟩, ⟨hsize, hoffset⟩, h⟩
  · rintro ⟨⟨size, offset⟩, ⟨hsize, hoffset⟩, h⟩
    exact ⟨size, hsize, offset, hoffset, h⟩

end Decoder

@[simp] theorem SectionRange.size_encode (range : SectionRange) : range.encode.size = 8 := by
  simp [SectionRange.encode]

namespace FileHeader

@[simp] theorem size_encode (header : FileHeader) : header.encode.size = byteSize := by
  simp [encode, byteSize]

theorem store_eq_ok_iff {header : FileHeader} {buffer image : Bytes} :
    header.store buffer = .ok image ↔
      byteSize ≤ buffer.size ∧ image = buffer.overlay 0 header.encode := by
  unfold store
  split
  · simp_all
  · simp_all [eq_comm]

theorem reads_decode_iff {header : FileHeader} :
    decode.Reads data p header q ↔ data.HoldsAt p header.encode.toList ∧ q = p + byteSize := by
  cases header
  simp [-bind_pure_comp, decode, encode, byteSize, Decoder.reads_vector_bind_iff,
    Decoder.reads_word_bind_iff, Decoder.reads_range_bind_iff, Decoder.reads_pure_iff,
    Bytes.holdsAt_append, and_assoc, Nat.add_assoc]

/-- A header is read where its bytes are. -/
theorem read_eq_ok_iff {header : FileHeader} :
    read data = .ok header ↔ data.HoldsAt 0 header.encode.toList := by
  unfold read
  rw [Except.bind_eq_ok_iff]
  constructor
  · rintro ⟨⟨_, q⟩, h, ⟨⟩⟩
    exact (reads_decode_iff.mp h).1
  · intro h
    exact ⟨_, reads_decode_iff.mpr ⟨h, rfl⟩, rfl⟩

end FileHeader

/-! ## The map list -/

namespace MapList

theorem encode_eq_ok_iff {list : MapList} {bytes : Bytes} :
    list.encode = .ok bytes ↔ list.entries.size < 2 ^ 32 ∧
      bytes.toList = (Bytes.ofWord list.entries.size.toUInt32).toList ++
        list.entries.toList.flatMap fun entry => (Row.encode entry).toList := by
  simp only [encode, Except.bind_eq_ok_iff, Except.pure_eq_ok_iff, ← Array.foldl_toList,
    ← Array.toList_inj, Bytes.toList_foldl_append]
  unfold toWord
  split <;> simp_all

theorem length_entries (entries : List MapEntry) :
    (entries.flatMap fun entry => (Row.encode entry).toList).length =
      entries.length * Row.size MapEntry := by
  induction entries with
  | nil => simp
  | cons entry entries ih =>
    rw [List.flatMap_cons, List.length_append, ih, Array.length_toList, Row.Readable.size_encode,
      List.length_cons, Nat.succ_mul, Nat.add_comm]

theorem size_encode {list : MapList} {bytes : Bytes} (h : list.encode = .ok bytes) :
    bytes.size = byteSize list.entries.size := by
  rw [← Array.length_toList, (encode_eq_ok_iff.mp h).2, List.length_append, length_entries]
  simp [byteSize]

/-- A map list is read where its bytes are. -/
theorem read_encode {list : MapList} {bytes : Bytes} {offset : UInt32} (h : list.encode = .ok bytes)
    (hat : data.HoldsAt offset.toNat bytes.toList) : read data offset = .ok list := by
  obtain ⟨hcount, hlist⟩ := encode_eq_ok_iff.mp h
  have hle : offset.toNat + bytes.size ≤ data.size := by
    rw [← Array.length_toList]
    refine hat.add_length_le ?_
    rw [hlist, ← List.length_pos_iff]
    simp
  rw [size_encode h, byteSize] at hle
  rw [hlist, Bytes.holdsAt_append, Array.length_toList, Bytes.size_ofWord] at hat
  have hword : Decoder.word.runAt data offset.toNat =
      .ok (list.entries.size.toUInt32, offset.toNat + 4) :=
    Decoder.reads_word_iff.mpr ⟨hat.1, rfl⟩
  have heach := Decoder.readsEach_flatMap (d := Row.decode) (fun entry _ p hat => by
    rw [Array.length_toList, Row.Readable.size_encode]
    exact Row.Readable.reads hat) hat.2
  have hgather : (gather list.entries.size (Row.decode : Decoder MapEntry)).runAt data
      (offset.toNat + 4) = .ok (list.entries, _) :=
    Decoder.reads_gather_iff.mpr ⟨rfl, heach⟩
  have havailable : ¬ list.entries.size.toUInt32.toNat >
      (data.size - (offset.toNat + 4)) / Row.size MapEntry := by
    rw [toNat_toUInt32 hcount, Nat.not_lt, Nat.le_div_iff_mul_le (by decide)]
    omega
  simp only [read, hword, bind, Except.bind, havailable, if_false, pure, Except.pure]
  rw [toNat_toUInt32 hcount, hgather]

end MapList

end DexGraph
