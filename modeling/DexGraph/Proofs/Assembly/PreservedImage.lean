import DexGraph.Proofs.Assembly.CanonicalImage
import DexGraph.Proofs.Assembly.Rewriting
import DexGraph.Proofs.Writing.Evaluation
import DexGraph.Proofs.Writing.HeaderFields
import DexGraph.Proofs.Writing.Retrace

/-!
# Preserved images

A canonical image that is read with its offsets is written back byte for byte, whatever bytes follow
it: `Dex.write_preserving_of_canonical`. `Assembly.Restorable` says what is known of a graph that has
been read from such an image. Part by part, the image has what is written for the graph
(`Assembly.Restorable.kept_of_spans`), and so it is a kept image.
-/

namespace DexGraph

/-! ## What is read from a canonical image -/

/-- What has been assembled from a canonical image, with its offsets. -/
structure Assembly.Restorable (source : Source) (a : Assembly) : Prop where
  keeps : source.options.keepOffsets = true
  valid : a.Valid source
  captured : a.Captured source
  count : ∀ s : Section, s.rowSize? ≠ none → a.graph.count s = source.rowCount s
  sound : a.graph.Sound
  outlined : a.Outlined source
  opened : Image.Opened source.data source.header
  canonical : source.Canonical a.graph a.layout

/-- The image has what belongs into a block, and the layout says where the block is. -/
structure Block.Kept (g : Graph) (l : Layout) (image : Bytes) (b : Block) : Prop where
  within : b.start ≤ b.stop ∧ b.stop ≤ image.size
  recorded : b.Recorded g l
  holds : b.part ≠ .header → ∃ content, b.part.Holds g l content ∧
    content.length = b.stop - b.start ∧ image.HoldsAt b.start content.toBytes.toList

private theorem toUInt32_toNat (o : UInt32) : o.toNat.toUInt32 = o :=
  UInt32.ofNat_toNat

namespace Assembly.Restorable

variable {source : Source} {a : Assembly} {s : Section} {r : Ref s} {n : Nat}
  (h : a.Restorable source)
include h

theorem layout_eq : a.layout = { Layout.ofHeader source.header with
    sections := a.layout.sections, hiddenapi := a.layout.hiddenapi } :=
  h.outlined.rest

theorem answers : a.layout.Answers (a.view source.data) :=
  fun s o r hs hfind => ((h.captured.find_iff s o r hs).mp hfind).2

/-- Everything has an offset. -/
theorem assigned (hr : a.graph.Has s r) : a.layout.Assigned s r := by
  obtain ⟨x, hx⟩ := Graph.has_iff_exists.mp hr
  cases hs : s.rowSize? with
  | none =>
    obtain ⟨o, ho, -⟩ := h.captured.item s r x hs hx
    exact ⟨o, ho⟩
  | some n =>
    obtain ⟨range, met, -, -, hplace, -⟩ := h.captured.row s n r x hs hx
    exact ⟨_, by rw [hplace]⟩

/-- Everything is written. -/
theorem written_iff : a.graph.Written a.layout s r ↔ a.graph.Has s r := by
  refine ⟨Graph.Written.has, fun hr => ?_⟩
  cases s with
  | codeItem => exact ⟨hr, .inr (h.assigned hr)⟩
  | debugInfo => exact ⟨hr, .inr (h.assigned hr)⟩
  | _ => exact hr

/-- The map list that is made is that of the image. -/
theorem mapListOf_eq : mapListOf a.graph a.layout = .ok source.map := by
  have hplaced (s : Section) : placedCount a.graph a.layout s = a.graph.count s :=
    h.sound.placedCount_eq fun _ => h.assigned
  refine h.outlined.mapListOf_eq h.keeps h.canonical.map fun s => ?_
  cases s <;> first | rfl | exact hplaced _

/-- The bytes of an entity stand where it lies. -/
theorem spells_encode {x : s.Content} {met : List Pointer} {o : UInt32} {q : Nat}
    (hr : a.graph.Has s r) (ho : (a.layout.place r).offset = some o)
    (hreads : s.survey.Reads (a.view source.data) source.data o.toNat x met q) :
    ∃ item, s.encode a.layout x = .ok item ∧ q = o.toNat + item.length ∧
      source.data.HoldsAt o.toNat item.toBytes.toList := by
  obtain ⟨_, hwalk⟩ := h.canonical.entity s r hr o ho
  obtain ⟨_, hpart, hat, hq⟩ := Section.spells_encode h.answers hreads hwalk
  obtain ⟨item, hitem, rfl⟩ := Except.map_eq_ok_iff.mp hpart
  exact ⟨item, hitem, by rw [hq, Array.length_toList, Stream.size_toBytes], hat⟩

/-! ### Tables -/

/-- Where a table that has entries lies. -/
theorem exists_range (hs : s.rowSize? = some n) (hcount : a.graph.count s ≠ 0) :
    ∃ range, source.range? s = some range ∧ range.size.toNat = a.graph.count s ∧
      a.layout.sectionOffset s = some range.offset := by
  have hrows := h.count s (by simp [hs])
  unfold Source.rowCount at hrows
  cases hrange : source.range? s with
  | none =>
    rw [hrange] at hrows
    exact absurd hrows hcount
  | some range =>
    rw [hrange] at hrows
    exact ⟨range, rfl, hrows.symm, h.outlined.table s range hrange⟩

/-- Every position of a section is that of an entity. -/
theorem exists_pos_eq {i : Nat} (hi : i < a.graph.count s) :
    ∃ r : Ref s, r.pos = i ∧ a.graph.get? r = (a.graph.entities s).items[i]? := by
  have hpos : (Ref.ofPos i : Ref s).pos = i :=
    Ref.pos_ofPos (Nat.lt_trans hi (h.captured.coherent s).size_lt)
  refine ⟨.ofPos i, hpos, ?_⟩
  unfold Graph.get? Collection.get?
  rw [hpos]

/-- An entry of a table is stored in its row. -/
theorem holds_row (hs : s.rowSize? = some n) {range : SectionRange}
    (hrange : source.range? s = some range) {x : s.Content} (hx : a.graph.get? r = some x) :
    ∃ item, s.encode a.layout x = .ok item ∧ item.length = n ∧
      (a.layout.place r).offset = some (range.offset.toNat + r.pos * n).toUInt32 ∧
      range.offset.toNat + r.pos * n + n ≤ source.data.size ∧
      source.data.HoldsAt (range.offset.toNat + r.pos * n) item.toBytes.toList := by
  obtain ⟨range', met, hrange', -, hplace, hoffset, hreads, hstop⟩ := h.captured.row s n r x hs hx
  obtain rfl := Option.some.inj (hrange.symm.trans hrange')
  have ho : (a.layout.place r).offset = some (range.offset + r.slot * n.toUInt32) := by
    rw [hplace]
  rw [← hoffset] at hreads
  obtain ⟨item, hitem, hlength, hat⟩ := h.spells_encode (Graph.has_of_get? hx) ho hreads
  rw [hoffset] at hat
  refine ⟨item, hitem, Section.length_of_encode_row hs hitem, ?_, hstop, hat⟩
  rw [ho, ← hoffset]
  exact congrArg some (toUInt32_toNat _).symm

/-- A table stands as it is written. -/
theorem holds_table (hs : s.rowSize? = some n) {range : SectionRange}
    (hrange : source.range? s = some range) :
    ∃ rows, Bytes.pieces (fun x => Stream.toBytes <$> s.encode a.layout x)
        (a.graph.entities s).items.toList = .ok rows ∧ rows.length = a.graph.count s * n ∧
      source.data.HoldsAt range.offset.toNat rows := by
  have hrow (i : Nat) (x : s.Content) (hi : (a.graph.entities s).items.toList[i]? = some x) :
      ∃ part, Stream.toBytes <$> s.encode a.layout x = .ok part ∧ part.size = n ∧
        source.data.HoldsAt (range.offset.toNat + i * n) part.toList := by
    rw [Array.getElem?_toList] at hi
    obtain ⟨r, rfl, hx⟩ := h.exists_pos_eq (Array.getElem?_eq_some_iff.mp hi).1
    obtain ⟨item, hitem, hlength, -, -, hat⟩ := h.holds_row hs hrange (hx.trans hi)
    exact ⟨item.toBytes, by rw [hitem]; rfl, by rw [Stream.size_toBytes, hlength], hat⟩
  obtain ⟨rows, hrows, hlength, hat⟩ := Bytes.exists_pieces hrow
  exact ⟨rows, hrows, by rw [hlength, Array.length_toList]; rfl, hat⟩

/-- A table lies within the image. -/
theorem stop_table_le (hs : s.rowSize? = some n) (hcount : a.graph.count s ≠ 0)
    {range : SectionRange} (hrange : source.range? s = some range) :
    range.offset.toNat + a.graph.count s * n ≤ source.data.size := by
  -- The table ends where its last row does.
  obtain ⟨k, hk⟩ := Nat.exists_eq_add_one_of_ne_zero hcount
  have hlast : k < a.graph.count s := hk ▸ Nat.lt_add_one k
  obtain ⟨r, rfl, -⟩ := h.exists_pos_eq hlast
  obtain ⟨x, hx⟩ := Graph.has_iff_exists.mp hlast
  obtain ⟨-, -, -, -, hstop, -⟩ := h.holds_row hs hrange hx
  rw [hk, Nat.add_mul, Nat.one_mul]
  omega

/-! ### Data items -/

/-- A data item stands as it is written, whatever else is placed. -/
theorem holds_item (hs : s.rowSize? = none) {x : s.Content} (hx : a.graph.get? r = some x)
    {o : UInt32} (ho : (a.layout.place r).offset = some o) :
    ∃ item, s.encode a.layout x = .ok item ∧ item.length = (a.layout.place r).size.toNat ∧
      o.toNat + item.length ≤ source.data.size ∧
      source.data.HoldsAt o.toNat item.toBytes.toList := by
  -- The image shows the item without the notes about its members, and these are not written.
  obtain ⟨o', met, q, hfind, hreads, hsize, -⟩ := h.valid.placed s r x hs hx
  obtain rfl := Option.some.inj (ho.symm.trans ((h.captured.find_iff s o' r hs).mp hfind).2)
  obtain ⟨_, ho', hstop, -⟩ := h.captured.item s r x hs hx
  obtain rfl := Option.some.inj (ho.symm.trans ho')
  obtain ⟨item, hitem, rfl, hat⟩ := h.spells_encode (Graph.has_of_get? hx) ho (hreads _ (.refl _))
  rw [Section.encode_bare] at hitem
  rw [Nat.add_sub_cancel_left] at hsize
  exact ⟨item, hitem, hsize.symm, by omega, hat⟩

/-- The map list names each section that has data items. -/
theorem named (hs : s.rowSize? = none) (hr : a.graph.Has s r) :
    ∃ o, a.layout.sectionOffset s = some o := by
  have hcount : a.graph.count s ≠ 0 := Nat.ne_of_gt (Nat.zero_lt_of_lt hr)
  have hkind : (s.mapItemType, a.graph.count s) ∈ a.graph.kindCounts := by
    refine List.mem_filter.mpr ⟨List.mem_append_right _ (List.mem_map.mpr ⟨s, ?_, rfl⟩), by simpa⟩
    exact List.mem_append_right _ (Section.mem_dataSections.mpr hs)
  obtain ⟨e, he, hcode⟩ := List.mem_map.mp <|
    h.canonical.map.kinds.mem_iff.mpr (List.mem_map_of_mem (f := fun k => (k.1.code, k.2)) hkind)
  have hkind : e.kind? = some s.mapItemType := by
    rw [MapEntry.kind?, (Prod.mk.inj hcode).1, MapItemType.ofCode?_code]
  obtain ⟨e', -, -, hoffset⟩ := h.outlined.named e (Array.mem_toList_iff.mp he) s hs hkind
  exact ⟨_, hoffset⟩

/-! ### What is beside the entities -/

/-- The hidden-API flags stand as they are written. -/
theorem holds_hiddenapi (hsome : a.graph.hiddenapi.isSome) :
    ∃ o flags item, a.layout.hiddenapi.offset = some o ∧ a.graph.hiddenapi = some flags ∧
      flags.encode a.layout.hiddenapi.size = .ok item ∧
      item.length = a.layout.hiddenapi.size.toNat ∧ o.toNat + item.length ≤ source.data.size ∧
      source.data.HoldsAt o.toNat item.toBytes.toList := by
  have hflags := h.outlined.hiddenapi
  unfold FlagsRead at hflags
  split at hflags
  · rename_i e _
    obtain ⟨total, flags, q, hread, hgraph, hplace⟩ := hflags
    have ho : a.layout.hiddenapi.offset = some e.offset := by
      rw [hplace, if_pos h.keeps]
    obtain ⟨_, hwalk⟩ := h.canonical.hiddenapi hsome e.offset ho
    obtain ⟨_, hpart, hat, hq⟩ := HiddenApi.spells_encode_of_canonical hread hwalk
    obtain ⟨item, hitem, rfl⟩ := Except.map_eq_ok_iff.mp hpart
    have hlength : item.toBytes.size = item.length := Stream.size_toBytes item
    have hpos := HiddenApi.length_pos_of_encode hitem
    have hstop := hat.add_size_le (by omega)
    rw [Array.length_toList] at hq
    refine ⟨e.offset, flags, item, ho, hgraph, by rw [hplace]; exact hitem, ?_, by omega, hat⟩
    rw [hplace]
    change _ = total.toNat
    omega
  · rw [hflags] at hsome
    cases hsome

/-- The map list stands as it is written. -/
theorem holds_mapList (hmap : MapList.read source.data source.header.mapOffset = .ok source.map) :
    ∃ bytes, source.map.encode = .ok bytes ∧
      bytes.size = MapList.byteSize source.map.entries.size ∧
      a.layout.mapOffset.toNat + bytes.size ≤ source.data.size ∧
      source.data.HoldsAt a.layout.mapOffset.toNat bytes.toList := by
  obtain ⟨_, hwalk⟩ := h.canonical.mapList
  obtain ⟨bytes, hbytes, hat⟩ := MapList.spells_encode hmap hwalk
  have hoffset : a.layout.mapOffset = source.header.mapOffset := by
    rw [h.layout_eq]
    rfl
  have hsize := MapList.size_encode hbytes
  rw [hoffset]
  exact ⟨bytes, hbytes, hsize, hat.add_size_le (by rw [hsize, MapList.byteSize]; omega), hat⟩

/-- The link data stand where the header says. -/
theorem holds_linkData : source.header.link.size.toNat = a.graph.linkData.size ∧
    (a.graph.linkData.size ≠ 0 →
      a.layout.linkOffset.toNat + a.graph.linkData.size ≤ source.data.size ∧
      source.data.HoldsAt a.layout.linkOffset.toNat a.graph.linkData.toList) := by
  have hoffset : a.layout.linkOffset = source.header.link.offset := by
    rw [h.layout_eq]
    rfl
  have hlink := h.outlined.linkData
  rw [hoffset]
  split at hlink
  · rename_i hzero
    rw [hzero, ← Option.some.inj hlink]
    exact ⟨rfl, fun hne => absurd rfl hne⟩
  · obtain ⟨hat, hsize⟩ := Bytes.holdsAt_of_slice? hlink
    exact ⟨hsize.symm, fun hne => ⟨hat.add_size_le (Nat.pos_of_ne_zero hne), hat⟩⟩

/-- The header of the image describes what has been read. -/
theorem describes : source.header.Describes a.graph a.layout := by
  have hrows (s : Section) (range : SectionRange) (hrange : source.header.table? s = some range) :
      s.rowSize? ≠ none ∧ source.range? s = some range := by
    have hs : s.rowSize? ≠ none := by
      cases s <;> first | decide | cases hrange
    exact ⟨hs, by rw [Source.range?_eq hs, hrange]; rfl⟩
  have hcount (s : Section) (range : SectionRange) (hrange : source.header.table? s = some range) :
      range.size.toNat = a.graph.count s := by
    rw [h.count s (hrows s range hrange).1, Source.rowCount, (hrows s range hrange).2]
  have hlayout := h.layout_eq
  constructor
  case magic => exact h.outlined.magic.symm
  case endianTag => exact h.outlined.endianTag.symm
  case headerSize => exact h.opened.headerSize
  case linkSize => exact h.holds_linkData.1
  case tableSize => exact hcount
  case tableOffset =>
    intro s range hrange
    split
    · rename_i hzero
      refine h.canonical.emptyTable s range hrange (UInt32.toNat_inj.mp ?_)
      rw [hcount s range hrange, hzero]
      rfl
    · exact h.outlined.table s range (hrows s range hrange).2
  all_goals
    rw [hlayout]
    rfl

/-! ### The image -/

/-- What is written takes up a range, and nothing else does. -/
theorem written_iff_spans {p : Part} : p.Written a.graph a.layout ↔
    ∃ start stop, p.Spans a.graph a.layout source.map.entries.size start stop := by
  cases p with
  | header => exact ⟨fun _ => ⟨_, _, rfl, rfl⟩, fun _ => trivial⟩
  | mapList => exact ⟨fun _ => ⟨_, _, rfl, rfl⟩, fun _ => trivial⟩
  | table s =>
    constructor
    · rintro ⟨hs, hcount⟩
      obtain ⟨n, hs⟩ := Option.ne_none_iff_exists'.mp hs
      obtain ⟨range, -, -, hoffset⟩ := h.exists_range hs hcount
      exact ⟨_, _, hcount, n, range.offset, hs, hoffset, rfl, rfl⟩
    · rintro ⟨_, _, hcount, n, _, hs, -⟩
      exact ⟨by simp [hs], hcount⟩
  | item s r =>
    constructor
    · rintro ⟨hs, hr⟩
      obtain ⟨o, ho⟩ := h.assigned hr.has
      exact ⟨_, _, hs, hr.has, o, ho, rfl, rfl⟩
    · rintro ⟨_, _, hs, hr, -⟩
      exact ⟨hs, h.written_iff.mpr hr⟩
  | hiddenapi =>
    constructor
    · intro hsome
      obtain ⟨o, -, -, ho, -⟩ := h.holds_hiddenapi hsome
      exact ⟨_, _, hsome, o, ho, rfl, rfl⟩
    · rintro ⟨_, _, hsome, -⟩
      exact hsome
  | linkData =>
    constructor
    · exact fun hne => ⟨_, _, hne, rfl, rfl⟩
    · rintro ⟨_, _, hne, -⟩
      exact hne

theorem kept_table {start stop : Nat}
    (hspans : (Part.table s).Spans a.graph a.layout source.map.entries.size start stop) :
    Block.Kept a.graph a.layout source.data ⟨.table s, start, stop⟩ := by
  obtain ⟨hcount, n, o, hs, ho, rfl, rfl⟩ := hspans
  obtain ⟨range, hrange, -, hoffset⟩ := h.exists_range hs hcount
  obtain rfl := Option.some.inj (ho.symm.trans hoffset)
  obtain ⟨rows, hrows, hlength, hat⟩ := h.holds_table hs hrange
  refine ⟨⟨Nat.le_add_right .., h.stop_table_le hs hcount hrange⟩, ?_, fun _ => ?_⟩
  · refine ⟨ho.trans (congrArg some (toUInt32_toNat _).symm), hcount, n, hs, rfl, fun r hr => ?_⟩
    obtain ⟨x, hx⟩ := Graph.has_iff_exists.mp hr
    obtain ⟨-, -, -, hplace, -⟩ := h.holds_row hs hrange hx
    exact hplace
  · refine ⟨.ofBytes rows.toArray, ⟨rows, hrows, rfl⟩, ?_, by rwa [Stream.toBytes_ofBytes]⟩
    rw [Stream.length_ofBytes, List.size_toArray, hlength, Nat.add_sub_cancel_left]

theorem kept_item {start stop : Nat}
    (hspans : (Part.item s r).Spans a.graph a.layout source.map.entries.size start stop) :
    Block.Kept a.graph a.layout source.data ⟨.item s r, start, stop⟩ := by
  obtain ⟨hs, hr, o, ho, rfl, rfl⟩ := hspans
  obtain ⟨x, hx⟩ := Graph.has_iff_exists.mp hr
  obtain ⟨item, hitem, hlength, hstop, hat⟩ := h.holds_item hs hx ho
  have hsize : item.length = o.toNat + (a.layout.place r).size.toNat - o.toNat := by
    rw [hlength, Nat.add_sub_cancel_left]
  refine ⟨⟨Nat.le_add_right .., hlength ▸ hstop⟩, ⟨hs, ?_, x, hx, fun l' item' hl' hitem' => ?_⟩,
    fun _ => ⟨item, ⟨x, hx, hitem⟩, hsize, hat⟩⟩
  · dsimp only
    rw [Nat.add_sub_cancel_left, toUInt32_toNat, toUInt32_toNat, ← ho]
  · obtain rfl := Except.ok.inj (hitem'.symm.trans (Section.encode_mono hl' hitem))
    exact hsize

theorem kept_hiddenapi {start stop : Nat}
    (hspans : Part.hiddenapi.Spans a.graph a.layout source.map.entries.size start stop) :
    Block.Kept a.graph a.layout source.data ⟨.hiddenapi, start, stop⟩ := by
  obtain ⟨hsome, o, ho, rfl, rfl⟩ := hspans
  obtain ⟨o', flags, item, ho', hflags, hitem, hlength, hstop, hat⟩ := h.holds_hiddenapi hsome
  obtain rfl := Option.some.inj (ho.symm.trans ho')
  refine ⟨⟨Nat.le_add_right .., hlength ▸ hstop⟩, ⟨?_, hsome⟩, fun _ =>
    ⟨item, ⟨flags, _, hflags, hitem⟩, by rw [hlength, Nat.add_sub_cancel_left], hat⟩⟩
  dsimp only
  rw [Nat.add_sub_cancel_left, toUInt32_toNat, toUInt32_toNat, ← ho]

variable (hmap : MapList.read source.data source.header.mapOffset = .ok source.map)
include hmap

/-- Whatever part it is, the image has in its range what is written for it. -/
theorem kept_of_spans {p : Part} {start stop : Nat}
    (hspans : p.Spans a.graph a.layout source.map.entries.size start stop) :
    Block.Kept a.graph a.layout source.data ⟨p, start, stop⟩ := by
  cases p with
  | header =>
    obtain ⟨rfl, rfl⟩ := hspans
    refine ⟨⟨Nat.zero_le _, ?_⟩, ⟨rfl, rfl⟩, fun hne => absurd rfl hne⟩
    have hstop := h.opened.holds.add_size_le (by rw [FileHeader.size_encode]; decide)
    rwa [FileHeader.size_encode, Nat.zero_add] at hstop
  | table s => exact h.kept_table hspans
  | item s r => exact h.kept_item hspans
  | hiddenapi => exact h.kept_hiddenapi hspans
  | mapList =>
    obtain ⟨rfl, rfl⟩ := hspans
    obtain ⟨bytes, hbytes, hsize, hstop, hat⟩ := h.holds_mapList hmap
    refine ⟨⟨Nat.le_add_right .., hsize ▸ hstop⟩, (toUInt32_toNat _).symm, fun _ =>
      ⟨.ofBytes bytes, ⟨_, bytes, h.mapListOf_eq, hbytes, rfl⟩, ?_, by rwa [Stream.toBytes_ofBytes]⟩⟩
    rw [Stream.length_ofBytes, hsize, Nat.add_sub_cancel_left]
  | linkData =>
    obtain ⟨hne, rfl, rfl⟩ := hspans
    obtain ⟨hstop, hat⟩ := h.holds_linkData.2 hne
    refine ⟨⟨Nat.le_add_right .., hstop⟩, ⟨(toUInt32_toNat _).symm, rfl, hne⟩, fun _ =>
      ⟨_, rfl, ?_, by rwa [Stream.toBytes_ofBytes]⟩⟩
    rw [Stream.length_ofBytes, Nat.add_sub_cancel_left]

/-- The image holds what has been read under the layout that has been read. -/
theorem kept : KeptImage a.graph a.layout source.data
    {b | b.part.Spans a.graph a.layout source.map.entries.size b.start b.stop} where
  size_eq := by
    rw [h.opened.size_eq, h.layout_eq]
    rfl
  parts_iff p := by
    rw [h.written_iff_spans]
    constructor
    · rintro ⟨start, stop, hspans⟩
      exact ⟨⟨p, start, stop⟩, hspans, rfl⟩
    · rintro ⟨b, hb, rfl⟩
      exact ⟨b.start, b.stop, hb⟩
  eq_of_part_eq b hb b' hb' heq := by
    obtain ⟨part, start, stop⟩ := b
    obtain ⟨part', start', stop'⟩ := b'
    obtain rfl : part = part' := heq
    obtain ⟨hstart, hstop⟩ := Part.Spans.unique hb hb'
    exact congrArg₂ (Block.mk part) hstart hstop
  named s hs r hr := h.named hs hr.has
  within b hb := (h.kept_of_spans hmap hb).within
  recorded b hb := (h.kept_of_spans hmap hb).recorded
  holds b hb := (h.kept_of_spans hmap hb).holds
  header := ⟨source.header, Writer.headerOf_of_describes h.describes, h.opened.holds⟩
  zero i hi houtside := h.canonical.padding i hi fun ⟨p, start, stop, hspans, hstart, hstop⟩ =>
    houtside ⟨p, start, stop⟩ hspans ⟨hstart, hstop⟩

end Assembly.Restorable

/-! ## Writing -/

/-- What is read from a canonical image can be restored. -/
theorem Build.restorable_of_all {source : Source} {a : Assembly}
    (hkeep : source.options = .preserving) (hopened : Image.Opened source.data source.header)
    (hrun : all source (.start source.header) = .ok ((), a))
    (hcanonical : source.Canonical a.graph a.layout) : a.Restorable source := by
  have hsize : source.data.size < 2 ^ 32 := hopened.size_eq ▸ source.header.fileSize.toNat_lt
  obtain ⟨hvalid, hstamped, horder⟩ := of_all source hsize hrun
  obtain ⟨classes, hcomplete⟩ :=
    (establishes_all hsize (built_start source source.header 18)).of_ok hrun
  have hkeeps : source.options.keepOffsets = true := by rw [hkeep]; rfl
  exact {
    keeps := hkeeps, valid := hvalid, opened := hopened, canonical := hcanonical
    captured := hvalid.captured hstamped horder hkeeps hsize
    count := hcomplete.built.count
    sound := hcomplete.built.intact.sound
    outlined := (establishes_outlined hsize (by rw [hkeep]; rfl)).of_ok hrun }

/-- What has been written is loaded as it is, whatever is put behind it. -/
theorem Graph.load_of_write {g : Graph} {options : WriteOptions} {layout l : Layout}
    {bytes rest : Bytes} {image : Image} (h : g.write options layout = (.ok bytes, l))
    (hload : Image.load (bytes ++ rest) = .ok image) :
    image.data = bytes ∧ Writer.headerOf g l = .ok image.header := by
  obtain ⟨hclosed, -⟩ := write_closed h
  obtain ⟨header, hheader, hat⟩ := hclosed.header
  obtain ⟨hopened, hdata⟩ := Image.opened_of_load hload
  have hstop := hopened.holds.add_size_le (by rw [FileHeader.size_encode]; decide)
  have hsize : image.data.size = image.fileSize := hopened.size_eq
  rw [FileHeader.size_encode, hsize] at hstop
  -- The header of the image is the one that has been written.
  have hat' : image.data.HoldsAt 0 header.encode.toList := hat.congr fun i _ hi => by
    have hle := hclosed.byteSize_le
    rw [Array.length_toList, FileHeader.size_encode] at hi
    rw [hdata, Array.getElem?_extract, Nat.zero_add,
      if_pos (by rw [Array.size_append]; omega), Array.getElem?_append_left (by omega)]
  obtain rfl : header = image.header := Except.ok.inj <|
    (FileHeader.read_eq_ok_iff.mpr hat').symm.trans (FileHeader.read_eq_ok_iff.mpr hopened.holds)
  have hfile : image.fileSize = bytes.size := by
    rw [hclosed.size_eq, ← (Writer.fields_of_headerOf hheader).2.1]
    rfl
  refine ⟨?_, hheader⟩
  rw [hdata, hfile]
  simp

/-- A canonical image that is read with its offsets is written back byte for byte, as far as it
belongs to the file: what lies behind it is left out. -/
theorem Dex.write_preserving_of_canonical {bytes : Bytes} {image : Image} {d : Dex}
    (hload : Image.load bytes = .ok image) (hread : ofImage .preserving image = .ok d)
    (hcanonical : image.Canonical d) :
    d.write .preserving = (.ok (bytes.extract 0 image.fileSize), d) := by
  obtain ⟨hopened, hdata⟩ := Image.opened_of_load hload
  obtain ⟨map, a, hmap, hrun, rfl⟩ := exists_all_of_ofImage hread
  obtain ⟨map', hmap', hparts⟩ := hcanonical.parts
  obtain rfl := Except.ok.inj (hmap.symm.trans hmap')
  have h := Build.restorable_of_all rfl hopened hrun hparts
  have hchecksum : imageChecksum image.data = a.layout.checksum := by
    rw [h.layout_eq]
    exact hcanonical.checksum
  have hwrite : a.graph.write .preserving a.layout = (.ok image.data, a.layout) :=
    (h.kept hmap).write h.sound rfl hchecksum nofun
  rw [← hdata]
  unfold write
  rw [hwrite]

/-- The image of a graph with a body, debug info and a handler is canonical, and is written back
without the byte that follows it. -/
theorem Dex.write_preserving_canonical_oneMethod : ∃ bytes image d,
    Image.load bytes = .ok image ∧ image.fileSize < bytes.size ∧
    ofImage .preserving image = .ok d ∧ image.Canonical d ∧
    d.write .preserving = (.ok (bytes.extract 0 image.fileSize), d) := by
  have hparts : ((Graph.oneMethod.write .relayout .empty).1.toOption.any fun bytes =>
      (Image.load (bytes ++ #[0])).toOption.any fun image =>
      (ofImage .preserving image).toOption.any fun d =>
      (MapList.read image.data image.header.mapOffset).toOption.any fun map =>
        Source.Canonical ⟨image.data, image.header, map, .preserving⟩ d.graph d.layout) = true := by
    unfold ofImage
    simp only [Graph.write, Writer.writeImage, Writer.closeImage, Writer.stampHeader,
      FileHeader.store, Stream.contents, Bytes.overlay_eq_laid, Image.data_eq_take,
      Writer.writeMapList, mapListOf, MapEntry.mergeSort_le]
    decide +kernel
  simp only [Option.any_eq_true, decide_eq_true_eq, Except.toOption_eq_some_iff] at hparts
  obtain ⟨bytes, hbytes, image, hload, d, hread, map, hmap, hcanonical⟩ := hparts
  have hwrite : Graph.oneMethod.write .relayout .empty =
      (.ok bytes, (Graph.oneMethod.write .relayout .empty).2) := by
    rw [← hbytes]
  obtain ⟨hdata, hheader⟩ := Graph.load_of_write hwrite hload
  have hchecksum : imageChecksum image.data = image.header.checksum := by
    rw [hdata, (Graph.write_stamped hwrite).1 rfl, (Writer.stamp_of_headerOf hheader).1]
  have hsize : image.data.size = image.fileSize := (Image.opened_of_load hload).1.size_eq
  refine ⟨_, image, d, hload, ?_, hread, ⟨hchecksum, map, hmap, hcanonical⟩,
    write_preserving_of_canonical hload hread ⟨hchecksum, map, hmap, hcanonical⟩⟩
  rw [← hsize, hdata, Array.size_append]
  exact Nat.lt_add_one _

end DexGraph
