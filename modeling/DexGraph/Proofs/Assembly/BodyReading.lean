import DexGraph.Proofs.Assembly.Tables
import DexGraph.Proofs.Codec.WellFormed

/-!
# Bodies are read back into a graph

A body is written with its handlers at their offsets, in whatever order they are stored, and the end
of the item is the furthest end of a handler. `Build.codeItem?_of_encode` says that a body whose
handlers follow each other without gaps is read back wherever its bytes stand in an image, and that
reading ends where writing did: at the position of the writer, at the size that is recorded for the
body, and at the length that has been set aside for it before the offset of its debug info was known.
-/

namespace DexGraph

/-! ## Clauses -/

namespace CatchHandler

/-- A clause lacks a type exactly if it is the last one of a handler that catches everything, and
there is a clause. -/
def Closed (h : CatchHandler) : Prop :=
  h.clauses ≠ #[] ∧ ∀ (i : Nat) (clause : CatchClause), h.clauses[i]? = some clause →
    (clause.type = none ↔ h.catchesAll = true ∧ i + 1 = h.clauses.size)

theorem Closed.wellFormed {h : CatchHandler} (hclosed : h.Closed) : h.WellFormed := by
  obtain ⟨hne, htype⟩ := hclosed
  have hne' : h.clauses.toList ≠ [] := fun hnil => hne (by simpa using hnil)
  refine ⟨fun clause hclause hnone => ?_, fun hall => ?_, fun hall => ?_⟩
  · unfold typed at hclause
    obtain ⟨i, hi⟩ := List.getElem?_of_mem hclause
    split at hi
    · obtain ⟨hlt, hi⟩ := List.getElem?_eq_some_iff.mp hi
      rw [List.getElem_dropLast] at hi
      rw [List.length_dropLast, Array.length_toList] at hlt
      have hget : h.clauses[i]? = some clause := by
        rw [← Array.getElem?_toList, ← hi]
        exact List.getElem?_eq_getElem _
      have := ((htype i clause hget).mp hnone).2
      omega
    · rename_i hall
      rw [Array.getElem?_toList] at hi
      exact hall ((htype i clause hi).mp hnone).1
  · have hlast : h.clauses[h.clauses.size - 1]? = some (h.clauses.toList.getLast hne') := by
      rw [← Array.getElem?_toList, ← Array.length_toList, List.getLast_eq_getElem]
      exact List.getElem?_eq_getElem _
    have hpos : 0 < h.clauses.size := Array.size_pos_iff.mpr hne
    have hnone := (htype _ _ hlast).mpr ⟨hall, by omega⟩
    refine ⟨(h.clauses.toList.getLast hne').address, ?_⟩
    have hclause : (⟨none, (h.clauses.toList.getLast hne').address⟩ : CatchClause) =
        h.clauses.toList.getLast hne' := by
      rw [← hnone]
    rw [hclause, typed, if_pos hall, List.dropLast_append_getLast]
  · rw [typed, if_neg (by simp [hall])]
    exact hne'

end CatchHandler

namespace Build

variable {source : Source} {a : Assembly}

/-- The offset zero stands for no debug info, and any other one for what has been built from it. -/
def DebugInfoAt (a : Assembly) (offset : UInt32) (debugInfo : Option (Ref .debugInfo)) : Prop :=
  if offset = 0 then debugInfo = none
  else debugInfo.isSome = true ∧ (a.known.get .debugInfo).get? (.ofOffset offset) = debugInfo

/-- Debug info that has been built is not read again. -/
theorem debugInfo?_of_debugInfoAt {offset : UInt32} {debugInfo : Option (Ref .debugInfo)}
    (h : DebugInfoAt a offset debugInfo) : debugInfo? offset source a = .ok (debugInfo, a) := by
  unfold DebugInfoAt at h
  unfold debugInfo? itemAt?
  by_cases hzero : offset = 0
  · rw [if_pos hzero] at h
    rw [if_pos (by simpa using hzero), h]
    rfl
  · rw [if_neg hzero] at h
    obtain ⟨hsome, hfound⟩ := h
    obtain ⟨r, rfl⟩ := Option.isSome_iff_exists.mp hsome
    rw [if_neg (by simpa using hzero), itemAt, itemOf, bind_assoc, run_known?_bind, hfound]
    rfl

/-- An item that is not known is read and added under its key. -/
theorem itemOf_of_run {s : Section} {key : ItemKey} {o : UInt32} {x : s.Content} {start stop : Nat}
    {read : Reading s.Content} (hkey : ItemKey.ofItem source.data s o = key)
    (hnew : (a.known.get s).get? key = (none : Option (Ref s))) (hroom : a.graph.count s < 2 ^ 32)
    (hstop : stop < 2 ^ 32) (hread : read.run start source a = .ok ((x, stop), a)) :
    ∃ r a', itemOf s key start read source a = .ok (r, a') ∧ a'.graph.get? r = some x ∧
      a'.layout.Locates source.options.keepOffsets r o stop := by
  subst hkey
  have hword : toWord (stop - (ItemKey.ofItem source.data s o).offset.toNat) =
      .ok (stop - o.toNat).toUInt32 := by
    rw [ItemKey.offset_ofItem]
    exact toWord_eq_ok_iff_lt.mpr ⟨by omega, rfl⟩
  obtain ⟨r, a', henter, hgrown, -, -, hlocates⟩ := Assembly.exists_enter
    source.options.keepOffsets source.data o (stop - o.toNat).toUInt32 x hnew
  refine ⟨r, a', ?_, ?_, hlocates stop (toNat_toUInt32 (by omega))⟩
  · rw [itemOf, run_known?_bind, hnew]
    dsimp only
    rw [run_bind, hread]
    dsimp only
    rw [enter, run_bind, hword]
    exact henter
  · unfold Graph.get?
    rw [hgrown.entities_self, Collection.get?_add hroom, hgrown.ref, if_pos rfl]

variable (source) in
/-- A body that an image shows at an offset is added when it is met for the first time. -/
theorem codeItem?_of_reads {offset : UInt32} {header : CodeHeader}
    {debugInfo : Option (Ref .debugInfo)} {code : CodeItem} {start stop : Nat}
    (hoffset : offset ≠ 0) (hheader : CodeHeader.decode.Reads source.data offset.toNat header start)
    (hdebugInfo : DebugInfoAt a header.debugInfoOffset debugInfo)
    (hafter : (CodeItem.decodeAfter a.graph header debugInfo).Reads source.data start code stop)
    (hnew : (a.known.get .codeItem).get? ⟨offset, header.debugInfoOffset⟩ =
      (none : Option (Ref .codeItem)))
    (hroom : a.graph.count .codeItem < 2 ^ 32) (hstop : stop < 2 ^ 32) :
    ∃ r a', codeItem? offset source a = .ok (some r, a') ∧ a'.graph.get? r = some code ∧
      a'.layout.Locates source.options.keepOffsets r offset stop := by
  have hbody : (do
      let debugInfo ← debugInfo? header.debugInfoOffset
      Reading.decodeWith fun g => CodeItem.decodeAfter g header debugInfo :
      Reading CodeItem).run start source a = .ok ((code, stop), a) := by
    rw [run_lift_bind, run_bind, debugInfo?_of_debugInfoAt hdebugInfo]
    exact run_decodeWith hafter
  obtain ⟨r, a', hitem, hget, hlocates⟩ :=
    itemOf_of_run (s := .codeItem) (ItemKey.ofItem_codeItem hheader) hnew hroom hstop hbody
  refine ⟨r, a', ?_, hget, hlocates⟩
  have hhead : (Reading.decode CodeHeader.decode).run offset.toNat source a =
      .ok ((header, start), a) := run_decodeWith (d := fun _ => CodeHeader.decode) hheader
  rw [codeItem?, if_neg (by simpa using hoffset), run_bind, hhead]
  dsimp only
  rw [run_bind, hitem]
  rfl

/-- A body that has been written is read back wherever it stands in an image, if its handlers follow
each other without gaps in whatever order they are stored. The position of the writer, the length
that is set aside for the body, the recorded size and the position at which reading ends agree. -/
theorem codeItem?_of_encode {image : Image} {map : MapList} {options : BuildOptions} {a : Assembly}
    {code : CodeItem} {item : Stream} {debugInfo : Option (Ref .debugInfo)}
    {offset debugInfoOffset : UInt32} (htries : code.tries = #[] ↔ code.handlers = #[])
    (hclosed : ∀ h ∈ code.handlers, h.Closed) (hcontiguous : code.HandlersContiguous)
    (hrefs : ∀ h ∈ code.handlers, ∀ c ∈ h.clauses, ∀ r ∈ c.type, a.graph.Has .typeId r)
    (hdebugInfo : DebugInfoAt a debugInfoOffset debugInfo)
    (hencode : code.encode debugInfoOffset = .ok item) (hoffset : offset ≠ 0)
    (hat : image.data.HoldsAt offset.toNat item.toBytes.toList)
    (hnew : (a.known.get .codeItem).get? ⟨offset, debugInfoOffset⟩ = (none : Option (Ref .codeItem)))
    (hroom : a.graph.count .codeItem < 2 ^ 32) :
    ∃ r a' code', codeItem? offset ⟨image.data, image.header, map, options⟩ a = .ok (some r, a') ∧
      a'.graph.get? r = some code' ∧ { code with debugInfo := debugInfo }.Matches code' ∧
      (CodeItem.decode a.graph debugInfo).Reads image.data offset.toNat code'
        (offset.toNat + item.length) ∧
      (a'.layout.place r).size.toNat = item.length ∧ item.position = item.length ∧
      ∃ scratch, code.encode 0 = .ok scratch ∧ scratch.length = item.length := by
  have hwell : code.WellFormed :=
    ⟨fun h hh => (hclosed h hh).wellFormed, htries.mp, hcontiguous⟩
  have hend : offset.toNat + item.length ≤ image.data.size := by
    have hlength : item.toBytes.toList.length = item.length := by
      rw [Array.length_toList, Stream.size_toBytes]
    have hpos := CodeItem.le_length_of_encode hencode
    rw [← hlength] at hpos ⊢
    exact hat.add_length_le (List.ne_nil_of_length_pos (by omega))
  have himage := image.size_data_lt
  have hproper : ∀ h ∈ code.handlers, h.Proper a.graph := fun h hh =>
    (hwell.handlers h hh).proper (hrefs h hh) (by
      have := hwell.size_le hencode h hh
      omega)
  obtain ⟨code', hread, hmatches⟩ : ∃ code',
      (CodeItem.decode a.graph debugInfo).Reads image.data offset.toNat code'
        (offset.toNat + item.length) ∧ { code with debugInfo := debugInfo }.Matches code' :=
    CodeItem.exists_decode_of_contiguous hencode hat hproper hwell.tries hcontiguous
  obtain ⟨header, start, hheader, hafter⟩ := Decoder.reads_bind_iff.mp hread
  obtain rfl : header.debugInfoOffset = debugInfoOffset := by
    have hplain := (Bytes.holdsAt_append.mp (CodeItem.holdsAt_of_encode hencode hat).1).1
    rw [(hheader.unique (CodeItem.recovers_header _ _ _ hplain)).1]
    rfl
  obtain ⟨r, a', hrun, hget, hsize, -⟩ :=
    codeItem?_of_reads ⟨image.data, image.header, map, options⟩ hoffset hheader hdebugInfo hafter
      hnew hroom (by omega)
  obtain ⟨scratch, hscratch, hscratchLength⟩ := CodeItem.encode_with_offset hencode 0
  exact ⟨r, a', code', hrun, hget, hmatches, hread, by omega,
    (CodeItem.tight_of_encode hencode).position_eq, scratch, hscratch, hscratchLength⟩

/-! ## A body with crossed handlers -/

/-- A body whose first handler comes second in the list, and whose second one comes last and belongs
to no try range. Two try ranges share the first handler. -/
def crossedBody : CodeItem where
  registers := 3
  ins := 1
  outs := 0
  debugInfo := some ⟨0⟩
  instructions := #[0x000E]
  tries := #[⟨0, 1, 0⟩, ⟨1, 1, 2⟩, ⟨2, 1, 0⟩]
  handlers := #[⟨true, 4, #[⟨some ⟨0⟩, 2⟩, ⟨none, 5⟩]⟩, ⟨true, 8, #[⟨none, 9⟩]⟩,
    ⟨false, 1, #[⟨some ⟨0⟩, 7⟩]⟩]

/-- The bytes of the crossed body, whose debug info lies at 48. -/
def crossedBytes : Bytes :=
  ((crossedBody.encode 48).toOption.map Stream.toBytes).getD #[]

/-- A header that says no more than how long the image is. -/
def plainHeader : FileHeader where
  magic := Vector.replicate 8 0
  checksum := 0
  signature := Vector.replicate 20 0
  fileSize := 100
  headerSize := 0
  endianTag := 0
  link := default
  mapOffset := 0
  stringIds := default
  typeIds := default
  protoIds := default
  fieldIds := default
  methodIds := default
  classDefs := default
  data := default

/-- An image of which only the crossed body is of interest, behind four bytes. -/
def crossedImage : Image :=
  ⟨#[0, 0, 0, 0] ++ crossedBytes, plainHeader⟩

/-- One type and the debug info at 48 have been met. -/
def crossedStart : Assembly :=
  { Assembly.start plainHeader with
    graph := { Graph.empty with typeIds := .ofItems [⟨⟨0⟩⟩] }
    known := (PerSection.replicate ∅).modify .debugInfo fun index =>
      ⟨index.slots.insert (.ofOffset 48) 0⟩ }

/-- The crossed body is read back. -/
theorem codeItem?_of_encode_crossed : ∃ item r a' code', crossedBody.encode 48 = .ok item ∧
    codeItem? 4 ⟨crossedImage.data, plainHeader, ⟨#[]⟩, .relayout⟩ crossedStart =
      .ok (some r, a') ∧
    a'.graph.get? r = some code' ∧ { crossedBody with debugInfo := some ⟨0⟩ }.Matches code' ∧
    (CodeItem.decode crossedStart.graph (some ⟨0⟩)).Reads crossedImage.data (4 : UInt32).toNat code'
      ((4 : UInt32).toNat + item.length) ∧
    (a'.layout.place r).size.toNat = item.length ∧ item.position = item.length ∧
    ∃ scratch, crossedBody.encode 0 = .ok scratch ∧ scratch.length = item.length := by
  obtain ⟨item, hitem⟩ : ∃ item, crossedBody.encode 48 = .ok item := ⟨_, rfl⟩
  have hbytes : crossedBytes = item.toBytes := by
    rw [crossedBytes, hitem]
    rfl
  have hat : crossedImage.data.HoldsAt (4 : UInt32).toNat item.toBytes.toList := by
    have hdata : crossedImage.data = #[0, 0, 0, 0] ++ crossedBytes := by decide +kernel
    intro i b hi
    rw [hdata, hbytes, Array.getElem?_append_right (by simp), ← Array.getElem?_toList]
    simpa using hi
  have hclosed : ∀ h ∈ crossedBody.handlers, h.Closed := by
    simp only [crossedBody, List.mem_toArray, List.mem_cons, List.not_mem_nil, or_false]
    rintro h (rfl | rfl | rfl) <;> refine ⟨by decide, fun i clause hi => ?_⟩ <;>
      rcases i with _ | _ | i <;> simp at hi <;> subst hi <;> simp
  have hcontiguous : crossedBody.HandlersContiguous :=
    ⟨[⟨false, 1, #[⟨some ⟨0⟩, 7⟩]⟩, ⟨true, 4, #[⟨some ⟨0⟩, 2⟩, ⟨none, 5⟩]⟩,
      ⟨true, 8, #[⟨none, 9⟩]⟩], by decide, rfl, rfl, rfl, trivial⟩
  have hrefs : ∀ h ∈ crossedBody.handlers, ∀ c ∈ h.clauses, ∀ r ∈ c.type,
      crossedStart.graph.Has .typeId r := by
    unfold Graph.Has
    decide
  have hdebugInfo : DebugInfoAt crossedStart 48 (some ⟨0⟩) := by
    rw [DebugInfoAt, if_neg (by decide)]
    exact ⟨rfl, by decide +kernel⟩
  obtain ⟨r, a', code', h⟩ := @codeItem?_of_encode crossedImage ⟨#[]⟩ .relayout _ _ _ _ 4 _
    (by decide) hclosed hcontiguous hrefs hdebugInfo hitem (by decide) hat (by decide +kernel)
    (by decide)
  exact ⟨item, r, a', code', hitem, h⟩

end Build

end DexGraph
