import DexGraph.Proofs.Assembly.CanonicalMembers
import DexGraph.Proofs.Assembly.Links
import DexGraph.Proofs.Bytes.Cursor
import DexGraph.Proofs.Codec.CanonicalCode
import DexGraph.Proofs.Codec.CanonicalValues
import DexGraph.Proofs.Codec.DebugInfoRecovery
import DexGraph.Proofs.Format.Rows

/-!
# Entities in canonical form

`Section.canonical` walks over an entity and accepts it only if it is stored as it would be written.
Most sections leave nothing to check, as each of their bytes counts. If the offsets of a layout are
those of the view, then an entity that a survey reads, and that the walk accepts, is written as the
bytes between the start and the end of the survey (`Section.spells_encode`).
-/

namespace DexGraph

/-! ## Walking over canonical entities -/

/-- An entry of an annotation set: it has an annotation. -/
def AnnotationSet.canonicalEntry : Decoder Unit := do
  let offset ← Decoder.word
  Decoder.require (offset ≠ 0)

/-- An annotation set, every entry of which has an annotation. -/
def AnnotationSet.canonical : Decoder Unit := do
  let count ← Decoder.word
  times count.toNat canonicalEntry

/-- A row of the table of method handles whose reserved fields are zero. -/
def MethodHandleRow.canonical : Decoder Unit := do
  let _ ← Decoder.halfWord
  let behindKind ← Decoder.halfWord
  Decoder.require (behindKind = 0)
  let _ ← Decoder.halfWord
  let behindTarget ← Decoder.halfWord
  Decoder.require (behindTarget = 0)

/-- An entity of a section, as it would be written. -/
def Section.canonical : Section → Decoder Unit
  | .stringData => discard Decoder.shortestLeb
  | .methodHandle => MethodHandleRow.canonical
  | .encodedArray => Value.canonicalArray
  | .annotationItem => do
    let _ ← Decoder.byte
    Annotation.canonical
  | .annotationSet => AnnotationSet.canonical
  | .codeItem => CodeItem.canonical
  | .classData => ClassData.canonical
  | _ => return ()

/-! ## Numbers, rows and lists -/

variable {data : Bytes} {p q r : Nat}

namespace Decoder

theorem spells_word {w : UInt32} (h : word.Reads data p w q) :
    data.Spells p q (.ok (Bytes.ofWord w).toList) := by
  obtain ⟨hat, rfl⟩ := reads_word_iff.mp h
  exact ⟨_, rfl, hat, by simp⟩

theorem spells_halfWord {w : UInt16} (h : halfWord.Reads data p w q) :
    data.Spells p q (.ok (Bytes.ofHalfWord w).toList) := by
  obtain ⟨hat, rfl⟩ := reads_halfWord_iff.mp h
  exact ⟨_, rfl, hat, by simp⟩

theorem spells_byte {b : UInt8} (h : byte.Reads data p b q) : data.Spells p q (.ok [b]) := by
  obtain ⟨hat, rfl⟩ := reads_byte_iff.mp h
  exact ⟨_, rfl, Bytes.holdsAt_singleton.mpr hat, rfl⟩

theorem spells_row {row : Type} [Row row] [Row.Exact row] {a : row}
    (h : Decoder.Reads Row.decode data p a q) : data.Spells p q (.ok (Row.encode a).toList) := by
  obtain ⟨hat, rfl⟩ := Row.Exact.holdsAt h
  exact ⟨_, rfl, hat, by rw [Array.length_toList, Row.Readable.size_encode]⟩

/-- Values that are read one behind the other stand there in pieces, if each of them does. -/
theorem ReadsEach.spells_pieces {α : Type} {d : Decoder α} {encode : α → Except Error Bytes}
    {xs : List α}
    (hd : ∀ p x q, d.Reads data p x q →
      data.Spells p q ((fun bytes : Bytes => bytes.toList) <$> encode x))
    (h : ReadsEach d data p xs q) : data.Spells p q (Bytes.pieces encode xs) := by
  induction xs generalizing p with
  | nil =>
    obtain rfl : q = p := h
    exact Bytes.spells_nil
  | cons x rest ih =>
    obtain ⟨r, hx, hrest⟩ := h
    obtain ⟨_, hhead, hat, rfl⟩ := hd p x r hx
    obtain ⟨head, hencode, rfl⟩ := Except.map_eq_ok_iff.mp hhead
    obtain ⟨tail, htail, hat', rfl⟩ := ih hrest
    refine ⟨head.toList ++ tail, ?_, Bytes.holdsAt_append.mpr ⟨hat, hat'⟩, ?_⟩
    · rw [Bytes.pieces, hencode, htail]
      rfl
    · rw [List.length_append, Nat.add_assoc]

end Decoder

/-- Bytes inside the data stand where they have been taken from. -/
theorem Bytes.spells_extract (hle : p ≤ q) (hsize : q ≤ data.size) :
    data.Spells p q (.ok (data.extract p q).toList) :=
  ⟨_, rfl, holdsAt_extract data p q, by rw [Array.length_toList, Array.size_extract]; omega⟩

/-- The bytes of the elements do not depend on what the elements are taken from. -/
theorem Bytes.pieces_map {α β : Type} {encode : β → Except Error Bytes} {f : α → β}
    (xs : List α) : pieces encode (xs.map f) = pieces (fun x => encode (f x)) xs := by
  induction xs with
  | nil => rfl
  | cons x xs ih => rw [List.map_cons, pieces, pieces, ih]

/-- A counted list stands where its number stands and its elements behind it. -/
theorem spells_encodeList {α : Type} {elements : Array α} {element : α → Except Error Bytes}
    {count : UInt32} (hsize : elements.size = count.toNat) (hcount : Decoder.word.Reads data p count r)
    (helements : data.Spells r q (Bytes.pieces element elements.toList)) :
    data.Spells p q ((fun bytes : Bytes => bytes.toList) <$> encodeList elements element) := by
  obtain ⟨part, hpart, hat, hend⟩ := (Decoder.spells_word hcount).append helements
  simp only [Except.bind_eq_ok_iff, Except.pure_eq_ok_iff] at hpart
  obtain ⟨_, ⟨⟩, tail, htail, rfl⟩ := hpart
  have hword : elements.size.toUInt32 = count := by rw [hsize, Nat.toUInt32_eq, UInt32.ofNat_toNat]
  have hencode : encodeList elements element =
      .ok ((Bytes.ofWord count).toList ++ tail).toArray :=
    encodeList_eq_ok_iff.mpr ⟨hsize ▸ count.toNat_lt, tail, htail, by rw [hword]⟩
  rw [hencode]
  exact ⟨_, rfl, hat, hend⟩

/-- An index that has been read from 16 bits fits 16 bits. -/
theorem toHalfWord_pos {s : Section} {r : Ref s} {index : UInt16} (h : r.slot = index.toUInt32) :
    toHalfWord r.pos = .ok index := by
  rw [toHalfWord_eq_ok_iff, Ref.pos, h, UInt16.toNat_toUInt32]

namespace Survey

variable {α : Type} {v : View} {met : List Pointer} {m : Survey α}

/-- What is gathered is read one behind the other. -/
theorem exists_of_gather {n : Nat} {xs : Array α}
    (h : (gather n m).Reads v data p xs met q) : ∃ found : List (α × List Pointer),
      found.length = n ∧ xs.toList = found.map Prod.fst ∧
        Decoder.ReadsEach (m v) data p found q := by
  have hfrom (done : Array α) (h : (gatherFrom done n m).Reads v data p xs met q) :
      ∃ found : List (α × List Pointer), found.length = n ∧
        xs.toList = done.toList ++ found.map Prod.fst ∧
        Decoder.ReadsEach (m v) data p found q := by
    clear * - h
    induction n generalizing done p met with
    | zero =>
      obtain ⟨rfl, -, rfl⟩ := reads_pure_iff.mp h
      exact ⟨[], rfl, by simp, rfl⟩
    | succ n ih =>
      obtain ⟨a, first, r, _, ha, hrest, -⟩ := reads_bind_iff.mp h
      obtain ⟨found, rfl, hxs, heach⟩ := ih _ hrest
      refine ⟨(a, first) :: found, rfl, ?_, r, ha, heach⟩
      rw [hxs, Array.toList_push, List.append_assoc, List.singleton_append, List.map_cons]
  exact hfrom #[] h

/-- What is gathered stands there in pieces, if each of it does. -/
theorem spells_gather {f : α → Except Error Bytes} {n : Nat} {xs : Array α}
    (hm : ∀ p a met q, m.Reads v data p a met q →
      data.Spells p q ((fun bytes : Bytes => bytes.toList) <$> f a))
    (h : (gather n m).Reads v data p xs met q) :
    xs.size = n ∧ data.Spells p q (Bytes.pieces f xs.toList) := by
  obtain ⟨found, rfl, hxs, heach⟩ := exists_of_gather h
  refine ⟨by rw [← Array.length_toList, hxs, List.length_map], ?_⟩
  rw [hxs, Bytes.pieces_map]
  exact heach.spells_pieces fun p x q hx => hm p x.1 x.2 q hx

end Survey

/-! ## Strings, type lists and debug info -/

section Entities

variable {l : Layout} {v : View} {met : List Pointer} {u : Unit}

theorem StringData.spells_encode {x : StringData} (h : decode.Reads data p x q)
    (hwalk : (discard Decoder.shortestLeb).Reads data p u r) :
    data.Spells p q (.ok x.encode.toList) := by
  simp only [decode, Decoder.reads_bind_iff, Decoder.reads_pure_iff] at h
  obtain ⟨length, m, hlength, bytes, _, hbytes, rfl, rfl⟩ := h
  obtain ⟨_, hlength'⟩ := Decoder.reads_discard_iff.mp hwalk
  obtain ⟨rfl, rfl, hlength⟩ := Decoder.shortestLeb_eq hlength hlength'
  obtain ⟨stop, hstop, rfl, rfl⟩ := Decoder.reads_cstring_iff.mp hbytes
  obtain ⟨hle, hlt, hzero, -⟩ := Decoder.zeroAmong?_eq_some_iff.mp hstop
  have hend : data.Spells stop (stop + 1) (.ok [0]) :=
    Decoder.spells_byte (Decoder.reads_byte_iff.mpr ⟨hzero, rfl⟩)
  rw [encode, Array.toList_append, Array.toList_append]
  exact (hlength.append (Bytes.spells_extract hle (by omega))).append hend

theorem TypeList.spells_encode {g : Graph} {x : TypeList} (h : (decode g).Reads data p x q) :
    data.Spells p q ((fun bytes : Bytes => bytes.toList) <$> x.encode) := by
  simp only [decode, Decoder.reads_bind_iff, Decoder.reads_pure_iff] at h
  obtain ⟨count, m, hcount, types, _, htypes, rfl, rfl⟩ := h
  obtain ⟨hsize, heach⟩ := Decoder.reads_gather_iff.mp htypes
  refine spells_encodeList hsize hcount (heach.spells_pieces fun p t q ht => ?_)
  simp only [Decoder.reads_bind_iff, Decoder.reads_ofExcept_iff] at ht
  obtain ⟨index, _, hindex, hresolve, rfl⟩ := ht
  rw [toHalfWord_pos (congrArg Ref.slot (Graph.resolve_eq_ok_iff.mp hresolve).1)]
  exact Decoder.spells_halfWord hindex

/-- A stream of debug info is kept as it stands. -/
theorem DebugInfo.spells_bytes {x : DebugInfo} (h : decode.Reads data p x q) :
    data.Spells p q (.ok x.bytes.toList) := by
  unfold Decoder.Reads Decoder.runAt decode at h
  obtain ⟨⟨_, stop⟩, hskip, hpure⟩ := Except.bind_eq_ok_iff.mp h
  obtain ⟨rfl, rfl⟩ := Prod.mk.inj (Except.pure_eq_ok_iff.mp hpure)
  obtain ⟨part, hat, rfl, -⟩ := portable_skip _ _ _ _ hskip
  rcases eq_or_ne part [] with rfl | hne
  · simpa using Bytes.spells_nil
  · exact Bytes.spells_extract (Nat.le_add_right ..) (hat.add_length_le hne)

/-! ## Annotations -/

theorem AnnotationSet.spells_entries (hl : l.Answers v)
    {found : List (Option (Ref .annotationItem) × List Pointer)}
    (h : Decoder.ReadsEach (surveyEntry v) data p found q)
    (hwalk : Decoder.ReadsEach canonicalEntry data p (List.replicate found.length ()) r) :
    (found.filterMap Prod.fst).length = found.length ∧
      data.Spells p q (Bytes.pieces (fun r => return .ofWord (← l.offsetOf r))
        (found.filterMap Prod.fst)) := by
  induction found generalizing p with
  | nil =>
    obtain rfl : q = p := h
    exact ⟨rfl, Bytes.spells_nil⟩
  | cons entry rest ih =>
    obtain ⟨entry, met⟩ := entry
    obtain ⟨m, hentry, hrest⟩ := h
    obtain ⟨_, hentry', hrest'⟩ := hwalk
    obtain ⟨offset, _, hoffset, hentry⟩ := Survey.exists_of_decode_bind hentry
    obtain ⟨_, _, hoffset', hrequire⟩ := Decoder.reads_bind_iff.mp hentry'
    obtain ⟨rfl, rfl⟩ := hoffset'.unique hoffset
    obtain ⟨hne, rfl⟩ := Decoder.reads_require_iff.mp hrequire
    rw [if_neg (by simpa using hne)] at hentry
    obtain ⟨item, _, hitem, hpure⟩ := Survey.exists_of_item_bind hl rfl hentry
    obtain ⟨rfl, -, rfl⟩ := Survey.reads_pure_iff.mp hpure
    obtain ⟨hlength, hpieces⟩ := ih hrest hrest'
    refine ⟨congrArg Nat.succ hlength, ?_⟩
    change data.Spells p q (Bytes.pieces _ (item :: rest.filterMap Prod.fst))
    rw [Bytes.pieces, hitem]
    exact (Decoder.spells_word hoffset).append hpieces

theorem AnnotationSet.spells_encode (hl : l.Answers v) {x : AnnotationSet}
    (h : survey.Reads v data p x met q) (hwalk : canonical.Reads data p u r) :
    data.Spells p q ((fun bytes : Bytes => bytes.toList) <$> x.encode l) := by
  obtain ⟨count, m, hcount, h⟩ := Survey.exists_of_decode_bind h
  obtain ⟨items, _, _, _, hitems, hpure, -⟩ := Survey.reads_bind_iff.mp h
  obtain ⟨rfl, -, rfl⟩ := Survey.reads_pure_iff.mp hpure
  obtain ⟨count', _, hcount', hentries⟩ := Decoder.reads_bind_iff.mp hwalk
  obtain ⟨rfl, rfl⟩ := hcount'.unique hcount
  obtain ⟨found, hlength, hlist, heach⟩ := Survey.exists_of_gather hitems
  rw [← hlength, Decoder.reads_times_iff] at hentries
  obtain ⟨hall, hpieces⟩ := spells_entries hl heach hentries
  have hkept : (items.filterMap id).toList = found.filterMap Prod.fst := by
    rw [Array.toList_filterMap, hlist, List.filterMap_map]
    rfl
  refine spells_encodeList ?_ hcount' ?_
  · rw [← Array.length_toList, hkept, hall, hlength]
  · rw [hkept]
    exact hpieces

theorem AnnotationSetRefList.spells_encode (hl : l.Answers v) {x : AnnotationSetRefList}
    (h : survey.Reads v data p x met q) :
    data.Spells p q ((fun bytes : Bytes => bytes.toList) <$> x.encode l) := by
  obtain ⟨count, m, hcount, h⟩ := Survey.exists_of_decode_bind h
  obtain ⟨items, _, _, _, hitems, hpure, -⟩ := Survey.reads_bind_iff.mp h
  obtain ⟨rfl, -, rfl⟩ := Survey.reads_pure_iff.mp hpure
  obtain ⟨hsize, hpieces⟩ := Survey.spells_gather
    (f := fun r => return Bytes.ofWord (← l.offsetOrZero r)) (fun p set met q hset => by
      obtain ⟨offset, _, hoffset, hset⟩ := Survey.exists_of_decode_bind hset
      obtain ⟨hfound, rfl⟩ := Survey.offsetOrZero_of_item? hl rfl hset
      rw [hfound]
      exact Decoder.spells_word hoffset) hitems
  exact spells_encodeList hsize hcount hpieces

theorem MemberAnnotations.spells_encode (hl : l.Answers v) {member notes : Section}
    (hnotes : notes.rowSize? = none) {x : MemberAnnotations member notes}
    (h : (survey member notes).Reads v data p x met q) :
    data.Spells p q ((fun bytes : Bytes => bytes.toList) <$> x.encode l) := by
  obtain ⟨index, _, hindex, h⟩ := Survey.exists_of_decode_bind h
  obtain ⟨offset, _, hoffset, h⟩ := Survey.exists_of_decode_bind h
  obtain ⟨owner, rfl, hrest⟩ := Survey.exists_of_resolve_bind h
  obtain ⟨annotations, _, hannotations, hpure⟩ := Survey.exists_of_item?_bind hl hnotes hrest
  obtain ⟨rfl, -, rfl⟩ := Survey.reads_pure_iff.mp hpure
  rw [encode_eq_ok_iff.mpr ⟨offset, hannotations, rfl⟩]
  change data.Spells p q (.ok (Bytes.ofWord owner.slot ++ Bytes.ofWord offset).toList)
  rw [Array.toList_append]
  exact (Decoder.spells_word hindex).append (Decoder.spells_word hoffset)

theorem AnnotationsDirectory.spells_encode (hl : l.Answers v) {x : AnnotationsDirectory}
    (h : survey.Reads v data p x met q) :
    data.Spells p q ((fun bytes : Bytes => bytes.toList) <$> x.encode l) := by
  obtain ⟨classOffset, _, hclassOffset, h⟩ := Survey.exists_of_decode_bind h
  obtain ⟨fieldCount, _, hfieldCount, h⟩ := Survey.exists_of_decode_bind h
  obtain ⟨methodCount, _, hmethodCount, h⟩ := Survey.exists_of_decode_bind h
  obtain ⟨parameterCount, entries, hparameterCount, h⟩ := Survey.exists_of_decode_bind h
  obtain ⟨classAnnotations, _, hclass, h⟩ := Survey.exists_of_item?_bind hl rfl h
  obtain ⟨fields, _, _, _, hfields, h, -⟩ := Survey.reads_bind_iff.mp h
  obtain ⟨methods, _, _, _, hmethods, h, -⟩ := Survey.reads_bind_iff.mp h
  obtain ⟨parameters, _, _, _, hparameters, h, -⟩ := Survey.reads_bind_iff.mp h
  obtain ⟨rfl, -, rfl⟩ := Survey.reads_pure_iff.mp h
  obtain ⟨hfieldSize, hfieldBytes⟩ :=
    Survey.spells_gather (fun _ _ _ _ => MemberAnnotations.spells_encode hl rfl) hfields
  obtain ⟨hmethodSize, hmethodBytes⟩ :=
    Survey.spells_gather (fun _ _ _ _ => MemberAnnotations.spells_encode hl rfl) hmethods
  obtain ⟨hparameterSize, hparameterBytes⟩ :=
    Survey.spells_gather (fun _ _ _ _ => MemberAnnotations.spells_encode hl rfl) hparameters
  have hword {n : Nat} {count : UInt32} (hn : n = count.toNat) :
      n < 2 ^ 32 ∧ n.toUInt32 = count := by
    rw [hn, Nat.toUInt32_eq, UInt32.ofNat_toNat]
    exact ⟨count.toNat_lt, rfl⟩
  have hhead : data.Spells p entries (.ok ((⟨classAnnotations, fields, methods, parameters⟩ :
      AnnotationsDirectory).headBytes classOffset)) := by
    unfold headBytes
    rw [(hword hfieldSize).2, (hword hmethodSize).2, (hword hparameterSize).2]
    exact (((Decoder.spells_word hclassOffset).append (Decoder.spells_word hfieldCount)).append
      (Decoder.spells_word hmethodCount)).append (Decoder.spells_word hparameterCount)
  obtain ⟨part, hpart, hat, hend⟩ :=
    ((hhead.append hfieldBytes).append hmethodBytes).append hparameterBytes
  simp only [Except.bind_eq_ok_iff, Except.pure_eq_ok_iff] at hpart
  obtain ⟨_, ⟨_, ⟨_, ⟨⟩, fieldBytes, hfieldBytes, rfl⟩, methodBytes, hmethodBytes, rfl⟩,
    parameterBytes, hparameterBytes, rfl⟩ := hpart
  have hencode : encode l ⟨classAnnotations, fields, methods, parameters⟩ = .ok (List.toArray _) :=
    encode_eq_ok_iff.mpr ⟨(hword hfieldSize).1, (hword hmethodSize).1, (hword hparameterSize).1,
      classOffset, fieldBytes, methodBytes, parameterBytes, hclass, hfieldBytes, hmethodBytes,
      hparameterBytes, rfl⟩
  rw [hencode]
  exact ⟨_, rfl, hat, hend⟩

/-! ## All sections -/

/-- What a method handle shows is written into its row. -/
theorem MethodHandleRow.toRow_of_survey {row : MethodHandleRow} {x : MethodHandle}
    (h : row.survey.Reads v data p x met q) : x.toRow = .ok row ∧ q = p := by
  unfold survey at h
  split at h
  · exact absurd (Survey.reads_decode_iff.mp h).1 Decoder.not_reads_fail
  · rename_i kind hkind
    have hcode : kind.code = row.kind := by
      have := List.find?_some hkind
      simpa using this
    obtain ⟨target, _, _, _, htarget, hpure, -⟩ := Survey.reads_bind_iff.mp h
    obtain ⟨rfl, -, rfl⟩ := Survey.reads_pure_iff.mp hpure
    have hindex : toHalfWord target.index.toNat = .ok row.target ∧ q = p := by
      unfold HandleTarget.survey at htarget
      split at htarget
      · obtain ⟨r, hr, hpure⟩ := Survey.exists_of_resolve_bind htarget
        obtain ⟨rfl, -, rfl⟩ := Survey.reads_pure_iff.mp hpure
        exact ⟨toHalfWord_pos hr, rfl⟩
      · obtain ⟨r, hr, hpure⟩ := Survey.exists_of_resolve_bind htarget
        obtain ⟨rfl, -, rfl⟩ := Survey.reads_pure_iff.mp hpure
        exact ⟨toHalfWord_pos hr, rfl⟩
    refine ⟨?_, hindex.2⟩
    rw [MethodHandle.toRow, hindex.1, hcode]
    rfl

/-- A row whose reserved fields are zero stands as it is written. -/
theorem MethodHandleRow.spells_row {row : MethodHandleRow}
    (h : Decoder.Reads Row.decode data p row q) (hwalk : canonical.Reads data p u r) :
    data.Spells p q (.ok (Row.encode row).toList) := by
  obtain ⟨hkind, -, htarget, -, rfl⟩ := Row.reads_methodHandleRow_iff.mp h
  simp only [canonical, Decoder.reads_halfWord_bind_iff, Decoder.reads_require_bind_iff,
    Decoder.reads_require_iff] at hwalk
  obtain ⟨_, -, _, hbehindKind, rfl, _, -, _, hbehindTarget, rfl, -⟩ := hwalk
  refine ⟨_, rfl, ?_, by rw [Array.length_toList, Row.Readable.size_encode]; rfl⟩
  rw [Row.toList_encode]
  simp only [Row.fields, List.flatMap_cons, List.flatMap_nil, List.append_nil,
    Bytes.holdsAt_append, Array.length_toList, Bytes.size_ofHalfWord]
  exact ⟨hkind, hbehindKind, htarget, hbehindTarget⟩

/-- An entity that a survey reads where it is in canonical form is written as it is stored. -/
theorem Section.spells_encode (hl : l.Answers v) {s : Section} {x : s.Content}
    (h : s.survey.Reads v data p x met q) (hwalk : s.canonical.Reads data p u r) :
    data.Spells p q ((fun item : Stream => item.toBytes.toList) <$> s.encode l x) := by
  have hbytes (bytes : Except Error Bytes)
      (hspells : data.Spells p q ((fun bytes : Bytes => bytes.toList) <$> bytes))
      (hencode : s.encode l x = do return .ofBytes (← bytes)) :
      data.Spells p q ((fun item : Stream => item.toBytes.toList) <$> s.encode l x) := by
    obtain ⟨_, hpart, hat, hend⟩ := hspells
    obtain ⟨part, rfl, rfl⟩ := Except.map_eq_ok_iff.mp hpart
    rw [hencode]
    exact ⟨_, congrArg (fun bytes : Bytes => Except.ok bytes.toList) (Stream.toBytes_ofBytes part),
      hat, hend⟩
  have hrow {row : Type} [Row row] {a : row} (hspells : data.Spells p q (.ok (Row.encode a).toList))
      (hencode : s.encode l x = .ok (.ofBytes (Row.encode a))) :
      data.Spells p q ((fun item : Stream => item.toBytes.toList) <$> s.encode l x) :=
    hbytes (.ok (Row.encode a)) hspells hencode
  cases s with
  | stringData =>
    obtain ⟨hread, -⟩ := Survey.reads_decode_iff.mp h
    exact hbytes (.ok x.encode) (StringData.spells_encode hread hwalk) rfl
  | debugInfo =>
    obtain ⟨hread, -⟩ := Survey.reads_decode_iff.mp h
    exact hbytes (.ok x.bytes) (DebugInfo.spells_bytes hread) rfl
  | typeList =>
    obtain ⟨hread, -⟩ := Survey.reads_decodeWith_iff.mp h
    exact hbytes _ (TypeList.spells_encode hread) rfl
  | annotationSet => exact hbytes _ (AnnotationSet.spells_encode hl h hwalk) rfl
  | annotationSetRefList => exact hbytes _ (AnnotationSetRefList.spells_encode hl h) rfl
  | annotationsDirectory => exact hbytes _ (AnnotationsDirectory.spells_encode hl h) rfl
  | classData => exact hbytes _ (ClassData.spells_encode hl h hwalk) rfl
  | encodedArray =>
    obtain ⟨values, _, hvalues, hpure⟩ := Survey.exists_of_decodeWith_bind h
    obtain ⟨rfl, -, rfl⟩ := Survey.reads_pure_iff.mp hpure
    obtain ⟨-, part, hpart, hat, hend⟩ := Value.decodeArray_keeps _ _ _ _ _ _ hvalues hwalk
    exact hbytes (.ok part.toArray) ⟨part, rfl, hat, hend⟩ (by
      simp only [encode, hpart]
      rfl)
  | annotationItem =>
    obtain ⟨code, m, hcode, hrest⟩ := Survey.exists_of_decode_bind h
    obtain ⟨code', _, hcode', hbody'⟩ := Decoder.reads_bind_iff.mp hwalk
    obtain ⟨rfl, rfl⟩ := hcode'.unique hcode
    split at hrest
    · exact absurd (Survey.reads_decode_iff.mp hrest).1 Decoder.not_reads_fail
    · rename_i visibility hvisibility
      have hvisible : visibility.code = code' := by
        have := List.find?_some hvisibility
        simpa using this
      obtain ⟨body, _, hbody, hpure⟩ := Survey.exists_of_decodeWith_bind hrest
      obtain ⟨rfl, -, rfl⟩ := Survey.reads_pure_iff.mp hpure
      obtain ⟨-, hspells⟩ := Annotation.decode_keeps _ _ _ _ _ _ hbody hbody'
      obtain ⟨part, hpart, hat, hend⟩ := (Decoder.spells_byte hcode).append hspells
      simp only [Except.bind_eq_ok_iff, Except.pure_eq_ok_iff] at hpart
      obtain ⟨_, ⟨⟩, tail, htail, rfl⟩ := hpart
      exact hbytes (.ok (visibility.code :: tail).toArray)
        ⟨_, rfl, by rw [hvisible]; exact hat, hend⟩ (by
        simp only [encode, htail]
        rfl)
  | codeItem =>
    obtain ⟨header, m, hheader, hrest⟩ := Survey.exists_of_decode_bind h
    obtain ⟨debugInfo, _, hdebug, hrest⟩ := Survey.exists_of_item?_bind hl rfl hrest
    obtain ⟨hread, -⟩ := Survey.reads_decodeWith_iff.mp hrest
    obtain ⟨-, rfl⟩ := CodeItem.reads_header_iff.mp hheader
    have hkept : x.debugInfo = debugInfo := (CodeItem.decodeAfter_ensures _ _ _ _ hread).1
    have hencode : Section.codeItem.encode l x = x.encode header.debugInfoOffset := by
      change (do x.encode (← l.offsetOrZero x.debugInfo)) = _
      rw [hkept, hdebug]
      rfl
    rw [hencode]
    exact (CodeItem.spells_encode_of_canonical hheader hread hwalk).2
  | stringId =>
    obtain ⟨row, m, hread, hrest⟩ := Survey.exists_of_decode_bind h
    obtain ⟨string, _, hstring, hpure⟩ := Survey.exists_of_item_bind hl rfl hrest
    obtain ⟨rfl, -, rfl⟩ := Survey.reads_pure_iff.mp hpure
    exact hrow (Decoder.spells_row hread) (by
      simp only [encode, StringId.toRow, hstring]
      rfl)
  | typeId =>
    obtain ⟨row, m, hread, hrest⟩ := Survey.exists_of_decode_bind h
    obtain ⟨descriptor, hdescriptor, hpure⟩ := Survey.exists_of_resolve_bind hrest
    obtain ⟨rfl, -, rfl⟩ := Survey.reads_pure_iff.mp hpure
    exact hrow (Decoder.spells_row hread) (by
      simp only [encode, TypeId.toRow, hdescriptor]
      rfl)
  | protoId =>
    obtain ⟨row, m, hread, hrest⟩ := Survey.exists_of_decode_bind h
    obtain ⟨shorty, hshorty, hrest⟩ := Survey.exists_of_resolve_bind hrest
    obtain ⟨returnType, hreturn, hrest⟩ := Survey.exists_of_resolve_bind hrest
    obtain ⟨parameters, _, hparameters, hpure⟩ := Survey.exists_of_item?_bind hl rfl hrest
    obtain ⟨rfl, -, rfl⟩ := Survey.reads_pure_iff.mp hpure
    exact hrow (Decoder.spells_row hread) (by
      simp only [encode, ProtoId.toRow, hshorty, hreturn, hparameters]
      rfl)
  | fieldId =>
    obtain ⟨row, m, hread, hrest⟩ := Survey.exists_of_decode_bind h
    obtain ⟨owner, howner, hrest⟩ := Survey.exists_of_resolve_bind hrest
    obtain ⟨type, htype, hrest⟩ := Survey.exists_of_resolve_bind hrest
    obtain ⟨name, hname, hpure⟩ := Survey.exists_of_resolve_bind hrest
    obtain ⟨rfl, -, rfl⟩ := Survey.reads_pure_iff.mp hpure
    exact hrow (Decoder.spells_row hread) (by
      simp only [encode, FieldId.toRow, toHalfWord_pos howner, toHalfWord_pos htype, hname]
      rfl)
  | methodId =>
    obtain ⟨row, m, hread, hrest⟩ := Survey.exists_of_decode_bind h
    obtain ⟨owner, howner, hrest⟩ := Survey.exists_of_resolve_bind hrest
    obtain ⟨proto, hproto, hrest⟩ := Survey.exists_of_resolve_bind hrest
    obtain ⟨name, hname, hpure⟩ := Survey.exists_of_resolve_bind hrest
    obtain ⟨rfl, -, rfl⟩ := Survey.reads_pure_iff.mp hpure
    exact hrow (Decoder.spells_row hread) (by
      simp only [encode, MethodId.toRow, toHalfWord_pos howner, toHalfWord_pos hproto, hname]
      rfl)
  | classDef =>
    obtain ⟨row, m, hread, hrest⟩ := Survey.exists_of_decode_bind h
    obtain ⟨type, htype, hrest⟩ := Survey.exists_of_resolve_bind hrest
    obtain ⟨superclass, hsuperclass, hrest⟩ := Survey.exists_of_resolveOrNone_bind hrest
    obtain ⟨interfaces, _, hinterfaces, hrest⟩ := Survey.exists_of_item?_bind hl rfl hrest
    obtain ⟨sourceFile, hsourceFile, hrest⟩ := Survey.exists_of_resolveOrNone_bind hrest
    obtain ⟨annotations, _, hannotations, hrest⟩ := Survey.exists_of_item?_bind hl rfl hrest
    obtain ⟨staticValues, _, hstaticValues, hrest⟩ := Survey.exists_of_item?_bind hl rfl hrest
    obtain ⟨classData, _, hclassData, hpure⟩ := Survey.exists_of_item?_bind hl rfl hrest
    obtain ⟨rfl, -, rfl⟩ := Survey.reads_pure_iff.mp hpure
    exact hrow (Decoder.spells_row hread) (by
      simp only [encode, ClassDef.toRow, htype, hsuperclass, hinterfaces, hsourceFile,
        hannotations, hstaticValues, hclassData]
      rfl)
  | callSiteId =>
    obtain ⟨row, m, hread, hrest⟩ := Survey.exists_of_decode_bind h
    obtain ⟨array, _, harray, hrest⟩ := Survey.exists_of_item?_bind hl rfl hrest
    cases array with
    | none => exact absurd (Survey.reads_decode_iff.mp hrest).1 Decoder.not_reads_fail
    | some array =>
      obtain ⟨rfl, -, rfl⟩ := Survey.reads_pure_iff.mp hrest
      have hoffset : l.offsetOf array = .ok row.arrayOffset := harray
      exact hrow (Decoder.spells_row hread) (by
        simp only [encode, CallSiteId.toRow, hoffset]
        rfl)
  | methodHandle =>
    obtain ⟨row, m, hread, hrest⟩ := Survey.exists_of_decode_bind h
    obtain ⟨htoRow, rfl⟩ := MethodHandleRow.toRow_of_survey hrest
    exact hrow (MethodHandleRow.spells_row hread hwalk) (by
      simp only [encode, htoRow]
      rfl)

end Entities

end DexGraph
