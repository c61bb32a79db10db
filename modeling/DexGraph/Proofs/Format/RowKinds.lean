import DexGraph.Proofs.Format.Rows

/-!
# The kinds of rows

There are nine kinds of rows: those of the eight tables and the entries of the map list.
`Row.Kind` names them, so that what holds of all rows is stated once. `Row.Kind.reserved` says
which bytes of a row are reserved: they are read as anything and written as zeros, while every
other byte is written as it was read (`Row.Kind.getElem?_encode`).

A row is read from as many bytes as it has, and not at all if there are fewer
(`Row.Kind.spans_decode`). It is stored field by field: if all of it fits, this is the same as
storing its bytes at once (`Row.store_of_le`), and if not, some field does not fit
(`Row.failure_store_of_lt`).
-/

namespace DexGraph

namespace Row

/-- The kinds of rows. -/
inductive Kind
  | stringId
  | typeId
  | protoId
  | fieldId
  | methodId
  | classDef
  | callSiteId
  | methodHandle
  | mapEntry
  deriving DecidableEq, Repr

namespace Kind

/-- The rows of a kind. -/
def Record : Kind → Type
  | stringId => StringIdRow
  | typeId => TypeIdRow
  | protoId => ProtoIdRow
  | fieldId => FieldIdRow
  | methodId => MethodIdRow
  | classDef => ClassDefRow
  | callSiteId => CallSiteIdRow
  | methodHandle => MethodHandleRow
  | mapEntry => MapEntry

instance : (kind : Kind) → Row kind.Record
  | stringId => inferInstanceAs (Row StringIdRow)
  | typeId => inferInstanceAs (Row TypeIdRow)
  | protoId => inferInstanceAs (Row ProtoIdRow)
  | fieldId => inferInstanceAs (Row FieldIdRow)
  | methodId => inferInstanceAs (Row MethodIdRow)
  | classDef => inferInstanceAs (Row ClassDefRow)
  | callSiteId => inferInstanceAs (Row CallSiteIdRow)
  | methodHandle => inferInstanceAs (Row MethodHandleRow)
  | mapEntry => inferInstanceAs (Row MapEntry)

instance : (kind : Kind) → Readable kind.Record
  | stringId => inferInstanceAs (Readable StringIdRow)
  | typeId => inferInstanceAs (Readable TypeIdRow)
  | protoId => inferInstanceAs (Readable ProtoIdRow)
  | fieldId => inferInstanceAs (Readable FieldIdRow)
  | methodId => inferInstanceAs (Readable MethodIdRow)
  | classDef => inferInstanceAs (Readable ClassDefRow)
  | callSiteId => inferInstanceAs (Readable CallSiteIdRow)
  | methodHandle => inferInstanceAs (Readable MethodHandleRow)
  | mapEntry => inferInstanceAs (Readable MapEntry)

/-- The places of the reserved bytes in a row. -/
def reserved : Kind → List Nat
  | methodHandle => [2, 3, 6, 7]
  | mapEntry => [2, 3]
  | _ => []

end Kind

/-! ## Storing a row -/

variable {α : Type} [Row α] [Readable α]

private theorem foldl_append_fields (fs : List Bytes) (start : Bytes) :
    fs.foldl (· ++ ·) start = start ++ fs.foldl (· ++ ·) #[] := by
  induction fs generalizing start with
  | nil => simp
  | cons f fs ih => rw [List.foldl_cons, List.foldl_cons, ih, ih (#[] ++ f)]; simp

private theorem storeFields_of_le {buffer : Bytes} {p : Nat} {fs : List Bytes}
    (h : p + (fs.foldl (· ++ ·) #[]).size ≤ buffer.size) :
    storeFields buffer p fs =
      ⟨buffer.overlay p (fs.foldl (· ++ ·) #[]), p + (fs.foldl (· ++ ·) #[]).size, none⟩ := by
  induction fs generalizing buffer p with
  | nil => rfl
  | cons f fs ih =>
    rw [List.foldl_cons, foldl_append_fields, Array.empty_append] at h ⊢
    rw [Array.size_append] at h ⊢
    rw [storeFields, if_pos (by omega), ih (by rw [Bytes.size_overlay]; omega),
      Bytes.overlay_append, Nat.add_assoc]

private theorem failure_storeFields_of_lt {buffer : Bytes} {p : Nat} {fs : List Bytes}
    (hle : fs = [] → p ≤ buffer.size) (h : buffer.size < p + (fs.foldl (· ++ ·) #[]).size) :
    (storeFields buffer p fs).failure = some .outOfBounds := by
  induction fs generalizing buffer p with
  | nil => exact absurd h (Nat.not_lt.mpr (hle rfl))
  | cons f fs ih =>
    rw [List.foldl_cons, foldl_append_fields, Array.empty_append, Array.size_append] at h
    rw [storeFields]
    split
    · rename_i hfits
      refine ih (fun _ => ?_) ?_
      · rwa [Bytes.size_overlay]
      · rw [Bytes.size_overlay]
        omega
    · rfl

/-- A row that fits is stored as its bytes at once. -/
theorem store_of_le {buffer : Bytes} {p : Nat} {row : α} (h : p + size α ≤ buffer.size) :
    store buffer p row = ⟨buffer.overlay p (encode row), p + size α, none⟩ := by
  rw [← Readable.size_encode row] at h ⊢
  exact storeFields_of_le h

/-- A row that does not fit is stored only up to some field. -/
theorem failure_store_of_lt {buffer : Bytes} {p : Nat} {row : α} (hpos : 0 < size α)
    (h : buffer.size < p + size α) : (store buffer p row).failure = some .outOfBounds := by
  rw [← Readable.size_encode row] at h hpos
  refine failure_storeFields_of_lt (fun hnil => ?_) h
  rw [encode, hnil] at hpos
  exact absurd hpos (Nat.lt_irrefl 0)

end Row

/-! ## Reading a fixed number of bytes -/

namespace Decoder

variable {α β : Type} {d : Decoder α} {n m : Nat}

/-- The decoder takes `n` bytes, whatever they are, and fails for want of bytes if there are
fewer. -/
def Spans (d : Decoder α) (n : Nat) : Prop :=
  ∀ data p, (p + n ≤ data.size → ∃ a, d.Reads data p a (p + n)) ∧
    (data.size < p + n → d.runAt data p = .error .outOfBounds)

theorem Spans.bind {f : α → Decoder β} (hd : d.Spans n) (hf : ∀ a, (f a).Spans m) :
    (d >>= f).Spans (n + m) := by
  intro data p
  constructor
  · intro hle
    obtain ⟨a, ha⟩ := (hd data p).1 (by omega)
    obtain ⟨b, hb⟩ := (hf a data (p + n)).1 (by omega)
    exact ⟨b, ha.bind (Nat.add_assoc p n m ▸ hb)⟩
  · intro hlt
    rw [runAt_bind]
    by_cases hn : p + n ≤ data.size
    · obtain ⟨a, ha⟩ := (hd data p).1 hn
      rw [show d.runAt data p = .ok (a, p + n) from ha]
      exact (hf a data (p + n)).2 (by omega)
    · rw [(hd data p).2 (Nat.lt_of_not_le hn)]

theorem Spans.map {f : α → β} (hd : d.Spans n) : (do return f (← d) : Decoder β).Spans n := by
  intro data p
  constructor
  · intro hle
    obtain ⟨a, ha⟩ := (hd data p).1 hle
    exact ⟨f a, ha.bind (reads_pure_iff.mpr ⟨rfl, rfl⟩)⟩
  · intro hlt
    rw [runAt_bind, (hd data p).2 hlt]

theorem spans_bytes (n : Nat) : (bytes n).Spans n := by
  intro data p
  constructor
  · intro hle
    exact ⟨_, reads_bytes_iff.mpr ⟨Bytes.holdsAt_extract data p (p + n), by simp; omega, hle, rfl⟩⟩
  · intro hlt
    have hslice : data.slice? p n = none := if_neg (Nat.not_le.mpr hlt)
    rw [runAt, bytes, hslice]

theorem spans_word : word.Spans 4 :=
  (spans_bytes 4).map.map

theorem spans_halfWord : halfWord.Spans 2 :=
  (spans_bytes 2).map.map

/-- A decoder that spans as many bytes as there are succeeds, and otherwise none does. -/
theorem Spans.runAt_eq_error_iff (hd : d.Spans n) (data : Bytes) (p : Nat) :
    d.runAt data p = .error .outOfBounds ↔ data.size < p + n := by
  constructor
  · intro h
    by_contra hle
    obtain ⟨a, ha⟩ := (hd data p).1 (Nat.le_of_not_lt hle)
    cases h.symm.trans ha
  · exact (hd data p).2

end Decoder

namespace Row

open Decoder

/-- A row takes as many bytes as it has. -/
theorem Kind.spans_decode (kind : Kind) :
    (decode : Decoder kind.Record).Spans (size kind.Record) := by
  cases kind with
  | stringId => exact spans_word.map
  | typeId => exact spans_word.map
  | protoId => exact spans_word.bind fun _ => spans_word.bind fun _ => spans_word.map
  | fieldId => exact spans_halfWord.bind fun _ => spans_halfWord.bind fun _ => spans_word.map
  | methodId => exact spans_halfWord.bind fun _ => spans_halfWord.bind fun _ => spans_word.map
  | classDef =>
    exact spans_word.bind fun _ => spans_word.bind fun _ => spans_word.bind fun _ =>
      spans_word.bind fun _ => spans_word.bind fun _ => spans_word.bind fun _ =>
      spans_word.bind fun _ => spans_word.map
  | callSiteId => exact spans_word.map
  | methodHandle =>
    change Spans (do
      let kind ← halfWord
      let _ ← halfWord
      let target ← halfWord
      let _ ← halfWord
      return (⟨kind, target⟩ : MethodHandleRow)) 8
    exact spans_halfWord.bind fun _ => spans_halfWord.bind fun _ => spans_halfWord.bind fun _ =>
      spans_halfWord.map
  | mapEntry =>
    change Spans (do
      let code ← halfWord
      let _ ← halfWord
      return (⟨code, ← word, ← word⟩ : MapEntry)) 12
    exact spans_halfWord.bind fun _ => spans_halfWord.bind fun _ => spans_word.bind fun _ =>
      spans_word.map

theorem Kind.size_pos (kind : Kind) : 0 < size kind.Record := by
  cases kind <;> exact Nat.succ_pos _

/-! ## Reserved bytes -/

variable {data : Bytes} {p q : Nat}

/-- A field of two bytes with a reserved one behind it. -/
private theorem getElem?_reserved {field : List UInt8} (h : data.HoldsAt p field)
    (hfield : field.length = 2) {j : Nat} (hj : j < 4) :
    (field ++ (Bytes.ofHalfWord 0).toList)[j]? =
      if j ∈ [2, 3] then some 0 else data[p + j]? := by
  have hzero : (Bytes.ofHalfWord 0).toList = [0, 0] := rfl
  obtain ⟨b, c, rfl⟩ := List.length_eq_two.mp hfield
  rw [Bytes.holdsAt_cons, Bytes.holdsAt_singleton] at h
  rw [hzero]
  interval_cases j <;> simp [h]

private theorem getElem?_encode_methodHandleRow {row : MethodHandleRow}
    (h : Reads decode data p row q) {j : Nat} (hj : j < 8) :
    (encode row)[j]? = if j ∈ [2, 3, 6, 7] then some 0 else data[p + j]? := by
  obtain ⟨hkind, -, htarget, -⟩ := reads_methodHandleRow_iff.mp h
  rw [← Array.getElem?_toList, toList_encode]
  simp only [fields, List.flatMap_cons, List.flatMap_nil, List.append_nil, ← List.append_assoc]
  rw [List.append_assoc (_ ++ _)]
  by_cases hfirst : j < 4
  · rw [List.getElem?_append_left (by simpa using hfirst), getElem?_reserved hkind (by simp) hfirst]
    exact if_congr (by simp; omega) rfl rfl
  · rw [List.getElem?_append_right (by simpa using hfirst)]
    have hlen : ((Bytes.ofHalfWord row.kind).toList ++ (Bytes.ofHalfWord 0).toList).length = 4 := by
      simp
    rw [hlen, getElem?_reserved htarget (by simp) (by omega), Nat.add_assoc,
      Nat.add_sub_cancel' (by omega)]
    exact if_congr (by simp; omega) rfl rfl

private theorem getElem?_encode_mapEntry {row : MapEntry}
    (h : Reads decode data p row q) {j : Nat} (hj : j < 12) :
    (encode row)[j]? = if j ∈ [2, 3] then some 0 else data[p + j]? := by
  obtain ⟨hcode, -, hsize, hoffset, -⟩ := reads_mapEntry_iff.mp h
  have hrest : data.HoldsAt (p + 4)
      ((Bytes.ofWord row.size).toList ++ (Bytes.ofWord row.offset).toList) :=
    Bytes.holdsAt_append.mpr ⟨hsize, by simpa [Nat.add_assoc] using hoffset⟩
  rw [← Array.getElem?_toList, toList_encode]
  simp only [fields, List.flatMap_cons, List.flatMap_nil, List.append_nil]
  rw [← List.append_assoc]
  by_cases hfirst : j < 4
  · rw [List.getElem?_append_left (by simpa using hfirst), getElem?_reserved hcode (by simp) hfirst]
  · rw [List.getElem?_append_right (by simpa using hfirst)]
    have hlen : ((Bytes.ofHalfWord row.code).toList ++ (Bytes.ofHalfWord 0).toList).length = 4 := by
      simp
    rw [hlen, ← hrest.getElem?_eq (by simp; omega), Nat.add_assoc,
      Nat.add_sub_cancel' (by omega), if_neg (by simp; omega)]

private theorem Kind.getElem?_encode_of_exact {kind : Kind} (hexact : Exact kind.Record)
    (hreserved : kind.reserved = []) {row : kind.Record} (h : Reads decode data p row q) {j : Nat}
    (hj : j < size kind.Record) :
    (encode row)[j]? = if j ∈ kind.reserved then some 0 else data[p + j]? := by
  have hsize : (encode row).toList.length = size kind.Record := Readable.size_encode row
  rw [hreserved, if_neg List.not_mem_nil, (hexact.holdsAt h).1.getElem?_eq (hsize ▸ hj),
    Array.getElem?_toList]

/-- A row is written as it was read, except that the reserved bytes are zero. -/
theorem Kind.getElem?_encode (kind : Kind) {row : kind.Record} (h : Reads decode data p row q)
    {j : Nat} (hj : j < size kind.Record) :
    (encode row)[j]? = if j ∈ kind.reserved then some 0 else data[p + j]? := by
  cases kind with
  | stringId => exact getElem?_encode_of_exact (inferInstanceAs (Exact StringIdRow)) rfl h hj
  | typeId => exact getElem?_encode_of_exact (inferInstanceAs (Exact TypeIdRow)) rfl h hj
  | protoId => exact getElem?_encode_of_exact (inferInstanceAs (Exact ProtoIdRow)) rfl h hj
  | fieldId => exact getElem?_encode_of_exact (inferInstanceAs (Exact FieldIdRow)) rfl h hj
  | methodId => exact getElem?_encode_of_exact (inferInstanceAs (Exact MethodIdRow)) rfl h hj
  | classDef => exact getElem?_encode_of_exact (inferInstanceAs (Exact ClassDefRow)) rfl h hj
  | callSiteId => exact getElem?_encode_of_exact (inferInstanceAs (Exact CallSiteIdRow)) rfl h hj
  | methodHandle => exact getElem?_encode_methodHandleRow h hj
  | mapEntry => exact getElem?_encode_mapEntry h hj

end Row

end DexGraph
