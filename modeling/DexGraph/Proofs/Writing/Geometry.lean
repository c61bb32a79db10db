import DexGraph.Proofs.Format.Rows
import DexGraph.Proofs.Writing.Relayout

/-!
# The geometry of an image

`Part.Spans` says which range a part of a graph takes up, in terms of the graph and its layout
alone. `Geometry g l image header list` says how the ranges of an image lie, and what its header
and its map list tell of them. `Graph.write_relayout_geometry` says that this is so of every image
that has been laid out anew.
-/

namespace DexGraph

/-- The range that a part of a graph takes up under a layout, if the map list has so many
entries. -/
def Part.Spans (g : Graph) (l : Layout) (entryCount : Nat) : Part → Nat → Nat → Prop
  | .header, a, b => a = 0 ∧ b = FileHeader.byteSize
  | .table s, a, b =>
    g.count s ≠ 0 ∧ ∃ n o, s.rowSize? = some n ∧ l.sectionOffset s = some o ∧ a = o.toNat ∧
      b = a + g.count s * n
  | .item s r, a, b =>
    s.rowSize? = none ∧ g.Has s r ∧ ∃ o, (l.place r).offset = some o ∧ a = o.toNat ∧
      b = a + (l.place r).size.toNat
  | .hiddenapi, a, b =>
    g.hiddenapi.isSome ∧ ∃ o, l.hiddenapi.offset = some o ∧ a = o.toNat ∧
      b = a + l.hiddenapi.size.toNat
  | .mapList, a, b => a = l.mapOffset.toNat ∧ b = a + MapList.byteSize entryCount
  | .linkData, a, b =>
    g.linkData.size ≠ 0 ∧ a = l.linkOffset.toNat ∧ b = a + g.linkData.size

/-- The kind under which the map list names the section of a part. -/
def Part.kind? : Part → Option MapItemType
  | .header => some .headerItem
  | .table s | .item s _ => some s.mapItemType
  | .hiddenapi => some .hiddenapiClassData
  | .mapList => some .mapList
  | .linkData => none

/-- The least offset of an entity of a section. -/
def Section.LeastOffset (g : Graph) (l : Layout) (s : Section) (o : UInt32) : Prop :=
  (∃ r : Ref s, g.Has s r ∧ (l.place r).offset = some o) ∧
    ∀ (r : Ref s) (o' : UInt32), g.Has s r → (l.place r).offset = some o' → o.toNat ≤ o'.toNat

/-- What the map list of a graph says under a layout: where the header and the map list are and,
for every section that is not empty, how many items have been placed and where the first is. -/
def MapEntry.Describes (g : Graph) (l : Layout) (e : MapEntry) : Prop :=
  e = ⟨MapItemType.headerItem.code, 1, 0⟩ ∨
  e = ⟨MapItemType.mapList.code, 1, l.mapOffset⟩ ∨
  (g.hiddenapi.isSome ∧ ∃ o, l.hiddenapi.offset = some o ∧
    e = ⟨MapItemType.hiddenapiClassData.code, 1, o⟩) ∨
  ∃ s : Section, e.code = s.mapItemType.code ∧ placedCount g l s ≠ 0 ∧
    e.size.toNat = placedCount g l s ∧ s.LeastOffset g l e.offset

/-- How an image lies that holds a graph under a layout. -/
structure Geometry (g : Graph) (l : Layout) (image : Bytes) (header : FileHeader)
    (list : MapList) : Prop where
  size_eq : image.size = l.fileSize.toNat
  within : ∀ p a b, Part.Spans g l list.entries.size p a b → a < b ∧ b ≤ image.size
  disjoint : ∀ p q a b c d, p ≠ q → Part.Spans g l list.entries.size p a b →
    Part.Spans g l list.entries.size q c d → b ≤ c ∨ d ≤ a
  zero : ∀ i < image.size,
    (∀ p a b, Part.Spans g l list.entries.size p a b → ¬ (a ≤ i ∧ i < b)) → image[i]? = some 0
  head_le : ∀ p a b, Part.Spans g l list.entries.size p a b → p.IsHead → b ≤ l.dataOffset.toNat
  in_data : ∀ p a b, Part.Spans g l list.entries.size p a b → ¬ p.IsHead → p ≠ .linkData →
    l.dataOffset.toNat ≤ a ∧ b ≤ l.dataOffset.toNat + l.dataSize.toNat
  aligned : ∀ p a b, Part.Spans g l list.entries.size p a b → p.alignment ∣ a
  dataOffset_dvd : 8 ∣ l.dataOffset.toNat
  mapOffset_dvd : 8 ∣ l.mapOffset.toNat
  dataEnd_dvd : 8 ∣ l.dataOffset.toNat + l.dataSize.toNat
  rows : ∀ s n o, s.rowSize? = some n → l.sectionOffset s = some o → ∀ r : Ref s, g.Has s r →
    ∃ o', (l.place r).offset = some o' ∧ o'.toNat = o.toNat + r.pos * n
  placed : ∀ s : Section, s ≠ .codeItem → s ≠ .debugInfo → placedCount g l s = g.count s
  read_header : FileHeader.read image = .ok header
  header_eq : Writer.headerOf g l = .ok header
  read_list : MapList.read image l.mapOffset = .ok list
  ascending : list.entries.toList.Pairwise fun e f => e.offset.toNat < f.offset.toNat
  distinct : (list.entries.toList.map (·.code)).Nodup
  mem_entries : ∀ e, e ∈ list.entries ↔ e.Describes g l

variable {g : Graph} {l : Layout}

namespace Part

theorem Spans.unique {n : Nat} {p : Part} {a b c d : Nat} (h : p.Spans g l n a b)
    (h' : p.Spans g l n c d) : a = c ∧ b = d := by
  cases p with
  | header => exact ⟨h.1.trans h'.1.symm, h.2.trans h'.2.symm⟩
  | table s =>
    obtain ⟨-, m, o, hm, ho, rfl, rfl⟩ := h
    obtain ⟨-, m', o', hm', ho', rfl, rfl⟩ := h'
    cases hm.symm.trans hm'
    cases ho.symm.trans ho'
    exact ⟨rfl, rfl⟩
  | item s r =>
    obtain ⟨-, -, o, ho, rfl, rfl⟩ := h
    obtain ⟨-, -, o', ho', rfl, rfl⟩ := h'
    cases ho.symm.trans ho'
    exact ⟨rfl, rfl⟩
  | hiddenapi =>
    obtain ⟨-, o, ho, rfl, rfl⟩ := h
    obtain ⟨-, o', ho', rfl, rfl⟩ := h'
    cases ho.symm.trans ho'
    exact ⟨rfl, rfl⟩
  | mapList =>
    obtain ⟨rfl, rfl⟩ := h
    obtain ⟨rfl, rfl⟩ := h'
    exact ⟨rfl, rfl⟩
  | linkData =>
    obtain ⟨-, rfl, rfl⟩ := h
    obtain ⟨-, rfl, rfl⟩ := h'
    exact ⟨rfl, rfl⟩

end Part

theorem Section.LeastOffset.unique {s : Section} {o o' : UInt32} (h : s.LeastOffset g l o)
    (h' : s.LeastOffset g l o') : o = o' := by
  obtain ⟨⟨r, hr, ho⟩, hle⟩ := h
  obtain ⟨⟨r', hr', ho'⟩, hle'⟩ := h'
  exact UInt32.toNat_inj.mp (Nat.le_antisymm (hle r' o' hr' ho') (hle' r o hr ho))

/-- Where every entity of a section has an offset, all of them count as placed. -/
theorem Graph.Sound.placedCount_eq (hg : g.Sound) {s : Section}
    (hplaced : ∀ r, g.Has s r → l.Assigned s r) : placedCount g l s = g.count s := by
  have hall : (g.entities s).order.filter (fun r => (l.place r).hasOffset) =
      (g.entities s).order := by
    rw [Array.filter_eq_self]
    intro r hr
    exact Option.isSome_iff_exists.mpr (hplaced r (hg.mem_order.mp hr))
  rw [placedCount, hall, (hg.coherent s).size_order]
  rfl

namespace FreshImage

variable {image : Bytes} {blocks : List Block}

/-! ## The ranges of the parts -/

/-- The map list that an image holds. -/
theorem exists_mapList (h : FreshImage g l image blocks) :
    ∃ list, mapListOf g l = .ok list ∧ MapList.read image l.mapOffset = .ok list ∧
      ⟨.mapList, l.mapOffset.toNat, l.mapOffset.toNat + MapList.byteSize list.entries.size⟩ ∈
        blocks := by
  obtain ⟨⟨part, start, stop⟩, hmem, rfl⟩ := (h.parts_iff .mapList).mp trivial
  obtain ⟨content, ⟨list, bytes, hlist, hbytes, rfl⟩, hlen, hat⟩ := h.holds _ hmem (by simp)
  have hsize := h.size_lt
  have hwithin := h.within _ hmem
  have hrec : l.mapOffset = start.toUInt32 := h.recorded _ hmem
  simp only at hlen hat hwithin
  have hstart : l.mapOffset.toNat = start := by
    rw [hrec, toNat_toUInt32 (by omega)]
  rw [Stream.toBytes_ofBytes] at hat
  rw [Stream.length_ofBytes, MapList.size_encode hbytes] at hlen
  refine ⟨list, hlist, MapList.read_encode hbytes (hstart ▸ hat), ?_⟩
  rw [hstart, hlen, Nat.add_sub_cancel' hwithin.1]
  exact hmem

theorem spans_of_mem (h : FreshImage g l image blocks) {list : MapList}
    (hlist : mapListOf g l = .ok list) {b : Block} (hmem : b ∈ blocks) :
    b.part.Spans g l list.entries.size b.start b.stop := by
  obtain ⟨part, start, stop⟩ := b
  have hsize := h.size_lt
  have hwithin := h.within _ hmem
  have hrec := h.recorded _ hmem
  simp only at hwithin
  have hstart : start.toUInt32.toNat = start := toNat_toUInt32 (by omega)
  cases part with
  | header => exact hrec
  | table s =>
    obtain ⟨ho, hcount, n, hn, hstop, -⟩ := hrec
    exact ⟨hcount, n, _, hn, ho, hstart.symm, hstop⟩
  | item s r =>
    obtain ⟨hs, hplace, x, hx, -⟩ := hrec
    simp only at hplace
    refine ⟨hs, Graph.has_of_get? hx, _, by rw [hplace], hstart.symm, ?_⟩
    simp only [hplace, toNat_toUInt32 (by omega : stop - start < 2 ^ 32)]
    omega
  | hiddenapi =>
    obtain ⟨hplace, hflags⟩ := hrec
    simp only at hplace
    refine ⟨hflags, _, by rw [hplace], hstart.symm, ?_⟩
    simp only [hplace, toNat_toUInt32 (by omega : stop - start < 2 ^ 32)]
    omega
  | mapList =>
    obtain ⟨list', hlist', -, hmem'⟩ := h.exists_mapList
    cases hlist.symm.trans hlist'
    cases h.eq_of_part_eq hmem hmem' rfl
    exact ⟨rfl, rfl⟩
  | linkData =>
    obtain ⟨ho, hstop, hne⟩ := hrec
    exact ⟨hne, by rw [ho, hstart], hstop⟩

theorem inImage_of_spans (h : FreshImage g l image blocks) {n : Nat} {p : Part} {a b : Nat}
    (hp : p.Spans g l n a b) : p.InImage g := by
  cases p with
  | header | mapList => trivial
  | table s =>
    obtain ⟨hcount, m, o, hm, -⟩ := hp
    exact ⟨by simp [hm], hcount⟩
  | item s r =>
    obtain ⟨hs, -, o, ho, -⟩ := hp
    exact ⟨hs, (h.assigned_iff s hs r).mp ⟨o, ho⟩⟩
  | hiddenapi => exact hp.1
  | linkData => exact hp.1

/-- The ranges of the parts are those of the blocks. -/
theorem spans_iff (h : FreshImage g l image blocks) {list : MapList}
    (hlist : mapListOf g l = .ok list) {p : Part} {a b : Nat} :
    p.Spans g l list.entries.size a b ↔ ⟨p, a, b⟩ ∈ blocks := by
  constructor
  · intro hp
    obtain ⟨block, hmem, rfl⟩ := (h.parts_iff p).mp (h.inImage_of_spans hp)
    obtain ⟨rfl, rfl⟩ := hp.unique (h.spans_of_mem hlist hmem)
    exact hmem
  · exact fun hmem => h.spans_of_mem hlist hmem

/-- A data item that takes up space has a size. -/
theorem size_pos (h : FreshImage g l image blocks) {s : Section} (hs : s.rowSize? = none)
    {r : Ref s} {o : UInt32} (ho : (l.place r).offset = some o)
    (hspace : ∀ x, g.get? r = some x → s.TakesSpace x) : 0 < (l.place r).size.toNat := by
  obtain ⟨content, ⟨x, hx, hitem⟩, hlen, -⟩ := h.holds _ (h.item_mem hs ho) (by simp)
  have := Section.length_pos_of_encode (hspace x hx) hitem
  simp only at hlen
  omega

/-- Data items lie in the image as they are listed. -/
theorem offset_lt_of_size_pos (h : FreshImage g l image blocks) (hg : g.Sound) {s : Section}
    (hs : s.rowSize? = none) {r r' : Ref s} {o o' : UInt32} (hlists : g.Lists r r')
    (ho : (l.place r).offset = some o) (ho' : (l.place r').offset = some o')
    (hpos : 0 < (l.place r).size.toNat) : o.toNat < o'.toNat := by
  have hb := h.item_mem hs ho
  have hb' := h.item_mem hs ho'
  have hne : r ≠ r' := by
    rintro rfl
    exact hlists.asymm hg hlists
  have hboth : blocks.Pairwise fun a b => (a.stop ≤ b.start ∧ a.part.InTurn g b.part) ∨
      (b.stop ≤ a.start ∧ b.part.InTurn g a.part) :=
    (h.ordered.and h.inTurn).imp fun hab => .inl hab
  have : Std.Symm fun a b : Block => (a.stop ≤ b.start ∧ a.part.InTurn g b.part) ∨
      (b.stop ≤ a.start ∧ b.part.InTurn g a.part) := ⟨fun _ _ hab => hab.symm⟩
  rcases hboth.forall hb hb' (by simp [hne]) with ⟨hle, -⟩ | ⟨-, hturn⟩
  · simp only at hle
    omega
  · exact absurd (hturn s r' r rfl rfl) (hlists.asymm hg)

/-- No part is empty, if no debug info is. -/
theorem start_lt_stop (h : FreshImage g l image blocks)
    (hdebug : ∀ (r : Ref .debugInfo) x, g.get? r = some x → 0 < x.bytes.size) {b : Block}
    (hmem : b ∈ blocks) : b.start < b.stop := by
  obtain ⟨part, start, stop⟩ := b
  have hrec := h.recorded _ hmem
  have hholds := h.holds _ hmem
  simp only at hholds ⊢
  cases part with
  | header =>
    obtain ⟨rfl, rfl⟩ := hrec
    decide
  | table s =>
    obtain ⟨-, hcount, n, hn, hstop, -⟩ := hrec
    have hpos : 0 < n := by cases s <;> cases hn <;> decide
    have := Nat.mul_pos (Nat.pos_of_ne_zero hcount) hpos
    simp only at hstop
    omega
  | item s r =>
    obtain ⟨content, ⟨x, hx, hitem⟩, hlen, -⟩ := hholds (by simp)
    have hspace : s.TakesSpace x := by
      cases s with
      | debugInfo => exact hdebug r x hx
      | _ => trivial
    have := Section.length_pos_of_encode hspace hitem
    omega
  | hiddenapi =>
    obtain ⟨content, ⟨flags, size, -, hitem⟩, hlen, -⟩ := hholds (by simp)
    have := HiddenApi.length_pos_of_encode hitem
    omega
  | mapList =>
    obtain ⟨list, -, -, hmem'⟩ := h.exists_mapList
    cases h.eq_of_part_eq hmem hmem' rfl
    exact Nat.lt_add_of_pos_right (by simp [MapList.byteSize])
  | linkData =>
    obtain ⟨-, hstop, hne⟩ := hrec
    simp only at hstop
    omega

/-! ## The sections -/

/-- The offset of a section is the least of its entities. -/
theorem leastOffset (h : FreshImage g l image blocks) {s : Section} {o : UInt32}
    (ho : l.sectionOffset s = some o) : s.LeastOffset g l o := by
  have hsize := h.size_lt
  cases hs : s.rowSize? with
  | none =>
    obtain ⟨⟨b, hmem, hstart, r, hp⟩, hle⟩ := h.least s hs o ho
    obtain ⟨part, start, stop⟩ := b
    simp only at hstart hp
    subst hp hstart
    obtain ⟨-, hplace, x, hx, -⟩ := h.recorded _ hmem
    simp only at hplace
    have hofNat : o.toNat.toUInt32 = o := UInt32.toNat_inj.mp (toNat_toUInt32 o.toNat_lt)
    refine ⟨⟨r, Graph.has_of_get? hx, by rw [hplace, hofNat]⟩, fun r' o' _ ho' => ?_⟩
    exact hle _ (h.item_mem hs ho') r' rfl
  | some n =>
    have hnamed := (h.named_iff s).mp ⟨o, ho⟩
    have hcount : g.count s ≠ 0 := by
      rcases hnamed with hnamed | ⟨hdata, -⟩
      · exact hnamed.2
      · rw [Section.mem_dataSections.mp hdata] at hs
        cases hs
    obtain ⟨⟨part, start, stop⟩, hmem, rfl⟩ := (h.parts_iff (.table s)).mp ⟨by simp [hs], hcount⟩
    obtain ⟨ho', -, m, hm, hstop, hrows⟩ := h.recorded _ hmem
    have hwithin := h.within _ hmem
    simp only at hstop hwithin ho'
    cases hs.symm.trans hm
    cases ho.symm.trans ho'
    have hrow (r : Ref s) (hr : g.Has s r) : start + r.pos * n < 2 ^ 32 := by
      have hpos : 0 < n := by cases s <;> cases hs <;> decide
      have := Nat.mul_lt_mul_of_pos_right hr hpos
      omega
    have hfirst : g.Has s (.ofPos 0) := Nat.pos_of_ne_zero hcount
    refine ⟨⟨.ofPos 0, hfirst, ?_⟩, fun r o' hr ho' => ?_⟩
    · have hzero : (Ref.ofPos 0 : Ref s).pos = 0 := rfl
      rw [hrows _ hfirst, hzero, Nat.zero_mul, Nat.add_zero]
    · rw [hrows r hr] at ho'
      cases ho'
      rw [toNat_toUInt32 (hrow r hr), toNat_toUInt32 (by omega)]
      exact Nat.le_add_right ..

theorem sectionOffset_iff (h : FreshImage g l image blocks) {s : Section}
    {o : UInt32} : l.sectionOffset s = some o ↔ s.LeastOffset g l o := by
  constructor
  · exact h.leastOffset
  · intro hleast
    obtain ⟨r, hr, ho⟩ := hleast.1
    have hnamed : s.Named g Section.dataSections := by
      cases hs : s.rowSize? with
      | none => exact .inr ⟨Section.mem_dataSections.mpr hs, r, (h.assigned_iff s hs r).mp ⟨o, ho⟩⟩
      | some n => exact .inl ⟨by simp [hs], Nat.ne_of_gt (Nat.zero_lt_of_lt hr)⟩
    obtain ⟨o', ho'⟩ := (h.named_iff s).mpr hnamed
    rw [ho', (h.leastOffset ho').unique hleast]

theorem placedCount_eq (hg : g.Sound) (h : FreshImage g l image blocks) {s : Section}
    (hcode : s ≠ .codeItem) (hdebug : s ≠ .debugInfo) : placedCount g l s = g.count s := by
  have hplaced (r : Ref s) (hr : g.Has s r) : l.Assigned s r := by
    cases hs : s.rowSize? with
    | some n => exact h.assigned_row (by simp [hs]) hr
    | none =>
      refine (h.assigned_iff s hs r).mpr ?_
      cases s with
      | codeItem => exact absurd rfl hcode
      | debugInfo => exact absurd rfl hdebug
      | _ => exact hr
  exact hg.placedCount_eq hplaced

/-! ## The map list -/

theorem count_ofSection (hg : g.Sound) (h : FreshImage g l image blocks) (s : Section) :
    (MapCandidate.ofSection g l s).count = placedCount g l s := by
  cases s with
  | codeItem | debugInfo => rfl
  | _ => exact (h.placedCount_eq hg (by decide) (by decide)).symm

theorem mem_entries_iff (hg : g.Sound) (h : FreshImage g l image blocks) {list : MapList}
    (hlist : mapListOf g l = .ok list) {e : MapEntry} : e ∈ list.entries ↔ e.Describes g l := by
  rw [mem_entries_mapListOf hlist]
  obtain ⟨code, size, offset⟩ := e
  have hone : 1 = size.toNat ↔ size = 1 := by
    rw [← UInt32.toNat_inj]
    exact eq_comm
  simp only [mem_mapCandidates, MapEntry.Describes, MapEntry.mk.injEq]
  constructor
  · rintro ⟨c, rfl | ⟨s, rfl⟩ | rfl | ⟨hflags, rfl⟩, hcount, hoffset, hsize, rfl⟩
    · cases hoffset
      exact .inl ⟨rfl, hone.mp hsize, rfl⟩
    · rw [h.count_ofSection hg] at hcount hsize
      exact .inr (.inr (.inr ⟨s, rfl, hcount, hsize.symm, h.leastOffset hoffset⟩))
    · cases hoffset
      exact .inr (.inl ⟨rfl, hone.mp hsize, rfl⟩)
    · exact .inr (.inr (.inl ⟨hflags, offset, hoffset, rfl, hone.mp hsize, rfl⟩))
  · rintro (⟨rfl, rfl, rfl⟩ | ⟨rfl, rfl, rfl⟩ | ⟨hflags, _, ho, rfl, rfl, rfl⟩ |
      ⟨s, rfl, hcount, hsize, hleast⟩)
    · exact ⟨_, .inl rfl, Nat.one_ne_zero, rfl, rfl, rfl⟩
    · exact ⟨_, .inr (.inr (.inl rfl)), Nat.one_ne_zero, rfl, rfl, rfl⟩
    · exact ⟨_, .inr (.inr (.inr ⟨hflags, rfl⟩)), Nat.one_ne_zero, ho, rfl, rfl⟩
    · refine ⟨_, .inr (.inl ⟨s, rfl⟩), ?_, h.sectionOffset_iff.mpr hleast, ?_, rfl⟩
      · rwa [h.count_ofSection hg]
      · rw [h.count_ofSection hg, hsize]

/-- Every entry of the map list is the kind of a block that starts at the offset of the entry. -/
theorem exists_block_of_entry (h : FreshImage g l image blocks) {e : MapEntry}
    (he : e.Describes g l) : ∃ b ∈ blocks, b.start = e.offset.toNat ∧
      (b.part.kind?.map MapItemType.code) = some e.code := by
  rcases he with rfl | rfl | ⟨hflags, o, ho, rfl⟩ | ⟨s, hcode, -, -, hleast⟩
  · exact ⟨_, h.header_mem, rfl, rfl⟩
  · obtain ⟨list, -, -, hmem⟩ := h.exists_mapList
    exact ⟨_, hmem, rfl, rfl⟩
  · obtain ⟨⟨part, start, stop⟩, hmem, rfl⟩ := (h.parts_iff .hiddenapi).mp hflags
    have hsize := h.size_lt
    have hwithin := h.within _ hmem
    obtain ⟨hplace, -⟩ := h.recorded _ hmem
    simp only at hplace hwithin
    rw [hplace] at ho
    cases ho
    exact ⟨_, hmem, (toNat_toUInt32 (by omega : start < 2 ^ 32)).symm, rfl⟩
  · obtain ⟨⟨r, hr, ho⟩, hle⟩ := hleast
    cases hs : s.rowSize? with
    | none => exact ⟨_, h.item_mem hs ho, rfl, by rw [hcode]; rfl⟩
    | some n =>
      obtain ⟨⟨part, start, stop⟩, hmem, rfl⟩ :=
        (h.parts_iff (.table s)).mp ⟨by simp [hs], Nat.ne_of_gt (Nat.zero_lt_of_lt hr)⟩
      have hsize := h.size_lt
      have hwithin := h.within _ hmem
      have hstart := (h.recorded _ hmem).1.symm.trans (h.sectionOffset_iff.mpr ⟨⟨r, hr, ho⟩, hle⟩)
      simp only at hwithin hstart
      refine ⟨_, hmem, ?_, by rw [hcode]; rfl⟩
      rw [← Option.some.inj hstart, toNat_toUInt32 (by omega)]

/-- The entries of the map list are in strictly ascending order of their offsets. -/
theorem entries_ascending (hg : g.Sound) (h : FreshImage g l image blocks)
    (hdebug : ∀ (r : Ref .debugInfo) x, g.get? r = some x → 0 < x.bytes.size) {list : MapList}
    (hlist : mapListOf g l = .ok list) :
    list.entries.toList.Pairwise fun e f => e.offset.toNat < f.offset.toNat := by
  refine (pairwise_entries_mapListOf hlist).imp_of_mem ?_
  rintro e f he hf ⟨hle, hcode⟩
  obtain ⟨a, ha, hastart, hakind⟩ :=
    h.exists_block_of_entry ((h.mem_entries_iff hg hlist).mp (Array.mem_toList_iff.mp he))
  obtain ⟨b, hb, hbstart, hbkind⟩ :=
    h.exists_block_of_entry ((h.mem_entries_iff hg hlist).mp (Array.mem_toList_iff.mp hf))
  have hne : a.part ≠ b.part := by
    intro heq
    rw [heq, hbkind] at hakind
    exact hcode (Option.some.inj hakind).symm
  have halt := h.start_lt_stop hdebug ha
  have hblt := h.start_lt_stop hdebug hb
  rcases MapEntry.le_iff.mp hle with hlt | ⟨heq, -⟩
  · exact hlt
  · -- Two blocks that start at one offset would overlap.
    rcases h.disjoint ha hb hne with hd | hd <;> omega

theorem geometry (hg : g.Sound) (h : FreshImage g l image blocks)
    (hdebug : ∀ (r : Ref .debugInfo) x, g.get? r = some x → 0 < x.bytes.size) :
    ∃ header list, Geometry g l image header list := by
  obtain ⟨header, hheader, hat⟩ := h.header
  obtain ⟨list, hlist, hread, hmapList⟩ := h.exists_mapList
  refine ⟨header, list, ?_⟩
  constructor
  case size_eq => exact h.size_eq
  case within =>
    intro p a b hp
    have hmem := (h.spans_iff hlist).mp hp
    exact ⟨h.start_lt_stop hdebug hmem, (h.within _ hmem).2⟩
  case disjoint =>
    intro p q a b c d hne hp hq
    exact h.disjoint ((h.spans_iff hlist).mp hp) ((h.spans_iff hlist).mp hq) hne
  case zero =>
    intro i hi hout
    exact h.zero i hi fun b hb => hout b.part b.start b.stop (h.spans_of_mem hlist hb)
  case head_le => exact fun p a b hp hhead => h.head_le _ ((h.spans_iff hlist).mp hp) hhead
  case in_data =>
    intro p a b hp hhead hlink
    have hmem := (h.spans_iff hlist).mp hp
    exact ⟨h.le_data _ hmem hhead, h.data_le _ hmem hlink⟩
  case aligned => exact fun p a b hp => h.aligned _ ((h.spans_iff hlist).mp hp)
  case dataOffset_dvd => exact h.dataOffset_dvd
  case mapOffset_dvd => exact h.aligned _ hmapList
  case dataEnd_dvd => exact h.dataEnd_dvd
  case rows =>
    intro s n o hs ho r hr
    obtain ⟨⟨part, start, stop⟩, hmem, rfl⟩ :=
      (h.parts_iff (.table s)).mp ⟨by simp [hs], Nat.ne_of_gt (Nat.zero_lt_of_lt hr)⟩
    obtain ⟨ho', -, m, hm, hstop, hrows⟩ := h.recorded _ hmem
    have hsize := h.size_lt
    have hwithin := h.within _ hmem
    simp only at ho' hstop hwithin
    cases hs.symm.trans hm
    cases ho.symm.trans ho'
    have hpos : 0 < n := by cases s <;> cases hs <;> decide
    have hlt := Nat.mul_lt_mul_of_pos_right hr hpos
    have hrow := hrows r hr
    simp only at hrow
    refine ⟨_, hrow, ?_⟩
    rw [toNat_toUInt32 (by omega), toNat_toUInt32 (by omega)]
  case placed => exact fun s hcode hinfo => h.placedCount_eq hg hcode hinfo
  case read_header => exact FileHeader.read_eq_ok_iff.mpr hat
  case header_eq => exact hheader
  case read_list => exact hread
  case ascending => exact h.entries_ascending hg hdebug hlist
  case distinct =>
    rw [List.Nodup, List.pairwise_map]
    exact (pairwise_entries_mapListOf hlist).imp fun hpair => hpair.2
  case mem_entries => exact fun e => h.mem_entries_iff hg hlist

end FreshImage

namespace Graph

/-- The parts of an image that has been laid out anew lie apart from each other, each where the
layout says and in the part of the image that is meant for it, and its map list names exactly its
sections. -/
theorem write_relayout_geometry {layout : Layout} {image : Bytes} (hg : g.Sound)
    (hdebug : ∀ (r : Ref .debugInfo) x, g.get? r = some x → 0 < x.bytes.size)
    (h : g.write .relayout layout = (.ok image, l)) :
    ∃ header list, Geometry g l image header list := by
  obtain ⟨blocks, himage⟩ := write_relayout hg h
  exact himage.geometry hg hdebug

theorem write_oneMethod_geometry : ∃ image l header list,
    oneMethod.write .relayout .empty = (.ok image, l) ∧ Geometry oneMethod l image header list := by
  obtain ⟨image, l, h⟩ := write_oneMethod
  have hdebug (r : Ref .debugInfo) (x : DebugInfo) (hx : oneMethod.get? r = some x) :
      0 < x.bytes.size := by
    have hmem := Array.mem_of_getElem? hx
    simp [oneMethod, entities] at hmem
    rw [hmem]
    decide
  obtain ⟨header, list, hgeometry⟩ := write_relayout_geometry oneMethod_sound hdebug h
  exact ⟨image, l, header, list, h, hgeometry⟩

end Graph

end DexGraph
