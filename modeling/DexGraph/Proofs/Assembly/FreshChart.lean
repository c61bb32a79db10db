import DexGraph.Proofs.Assembly.WellFormed
import DexGraph.Proofs.Writing.HeaderFields

/-!
# The chart of a fresh image

What is met while an image that has been laid out anew is read is known in advance: the entries of
the tables one after the other, and the data items at the offsets of the layout.
`Graph.chart g l k` is the chart of what can be read when the tables with turns below `k` have been
read. It admits the table whose turn it is (`FreshImage.admitsTable`), because the image shows what
the graph has wherever the layout says (`FreshImage.exists_reads`). So no table is refused: when
each of them has been read in its turn, `Assembly.UpTo` still holds
(`FreshImage.establishes_turn`).
-/

namespace DexGraph

/-- What can be read when the tables with smaller turns have been read: the entries of these tables,
and the data items that name no others. -/
def Graph.chart (g : Graph) (l : Layout) (k : Nat) : Chart where
  rows s := if s.turn < k then g.count s else 0
  holds s o := s.rowSize? = none ∧ ∃ (r : Ref s) (x : s.Content), g.get? r = some x ∧
    (l.place r).offset = some o ∧ s.InReach k x

namespace FreshImage

variable {g : Graph} {l : Layout} {image : Bytes} {blocks : List Block} {s : Section} {k : Nat}
  (h : FreshImage g l image blocks) (hg : g.WellFormed)
include h hg

/-- Every entity has an offset. -/
theorem exists_offset {r : Ref s} (hr : g.Has s r) : ∃ o, (l.place r).offset = some o := by
  cases hs : s.rowSize? with
  | some n => exact h.assigned_row (by simp [hs]) hr
  | none => exact (h.assigned_iff s hs r).mpr (hg.emitted hr)

/-- Where all of the chart is found, so is everything that is named by an entity that names only
what is on the chart. -/
theorem finds_of_covers {v : View} (hv : v.Covers (g.chart l k)) {r : Ref s} {x : s.Content}
    (hx : g.get? r = some x) (hreach : s.InReach k x)
    (hlinks : ∀ (t : Section) (q : Ref t), ⟨t, some q⟩ ∈ s.links x → ∀ y, g.get? q = some y →
      t.InReach k y) : s.AllRefs (l.Finds v) x := by
  refine (((hg.sound.refs s r x hx).and hreach).and (Section.allRefs_of_links hlinks)).mono
    fun t q ⟨⟨hhas, hturn⟩, hitem⟩ => ?_
  unfold Layout.Finds
  cases ht : t.rowSize? with
  | some n =>
    have hrow : t.rowSize? ≠ none := by simp [ht]
    have hsize := (hg.sound.coherent t).size_lt
    have hcount := hv.rows t hrow
    simp only [Graph.chart, if_pos (hturn hrow)] at hcount
    refine ⟨Nat.lt_of_lt_of_le hhas hcount, ?_⟩
    rintro hnone
    have hpos : q.pos = noIndex.toNat := congrArg UInt32.toNat hnone
    have hlt : q.pos < g.count t := hhas
    have hmax : noIndex.toNat = 2 ^ 32 - 1 := rfl
    change g.count t < 2 ^ 32 at hsize
    omega
  | none =>
    obtain ⟨o, ho⟩ := h.exists_offset hg hhas
    obtain ⟨y, hy⟩ := Graph.has_iff_exists.mp hhas
    exact ⟨o, ho, h.offset_ne_zero ht ho, hv.find ⟨ht, q, y, hy, ho, hitem ht y hy⟩⟩

omit hg in
/-- Wherever the image has an entity, an entity that mirrors it is read from what has been stored, in
a view that finds what it names. -/
theorem exists_reads {v : View} {r : Ref s} {x : s.Content} {o : UInt32} (hx : g.get? r = some x)
    (hwell : s.WellFormed x) (ho : (l.place r).offset = some o)
    (hrefs : s.AllRefs (l.Finds v) x) : ∃ y item, s.encode l x = .ok item ∧
      o.toNat + item.length < 2 ^ 32 ∧
      s.survey.Reads v image o.toNat y ((s.links x).map l.pointer) (o.toNat + item.length) ∧
        s.Mirrors (l.pairing v) x y := by
  obtain ⟨item, hitem, hle, hat⟩ := h.heldAt s r x o hx ho
  have hlt := h.size_lt
  obtain ⟨y, hreads, hmirrors⟩ :=
    Section.shows_of_encode hitem hrefs hwell (by omega) image o.toNat hat
  rw [Array.length_toList, Stream.size_toBytes] at hreads
  exact ⟨y, item, hitem, by omega, hreads, hmirrors⟩

end FreshImage

/-! ## Where the tables lie -/

theorem Section.mapItemType_inj {s t : Section} (h : s.mapItemType = t.mapItemType) : s = t := by
  cases s <;> cases t <;> first | rfl | cases h

namespace MapEntry.Describes

variable {g : Graph} {l : Layout} {e : MapEntry} (h : e.Describes g l)
include h

/-- The entry of a section. -/
theorem of_section {s : Section} (hcode : e.code = s.mapItemType.code) :
    placedCount g l s ≠ 0 ∧ e.size.toNat = placedCount g l s ∧ s.LeastOffset g l e.offset := by
  have hother (kind : MapItemType) (hkind : kind ≠ s.mapItemType) :
      kind.code ≠ s.mapItemType.code := fun heq => hkind (MapItemType.code_inj.mp heq)
  rcases h with rfl | rfl | ⟨-, o, -, rfl⟩ | ⟨t, hkind, hcount, hsize, hleast⟩
  · exact absurd hcode (hother .headerItem (by cases s <;> decide))
  · exact absurd hcode (hother .mapList (by cases s <;> decide))
  · exact absurd hcode (hother .hiddenapiClassData (by cases s <;> decide))
  · obtain rfl := Section.mapItemType_inj (MapItemType.code_inj.mp (hkind.symm.trans hcode))
    exact ⟨hcount, hsize, hleast⟩

/-- The entry of the hidden-API flags. -/
theorem of_hiddenapi (hcode : e.code = MapItemType.hiddenapiClassData.code) :
    g.hiddenapi.isSome ∧ l.hiddenapi.offset = some e.offset := by
  rcases h with rfl | rfl | ⟨hflags, o, ho, rfl⟩ | ⟨t, hkind, -, -, -⟩
  · exact absurd (MapItemType.code_inj.mp (show MapItemType.headerItem.code = _ from hcode))
      (by decide)
  · exact absurd (MapItemType.code_inj.mp (show MapItemType.mapList.code = _ from hcode))
      (by decide)
  · exact ⟨hflags, ho⟩
  · have hsection := MapItemType.code_inj.mp (hkind.symm.trans hcode)
    cases t <;> cases hsection

end MapEntry.Describes

/-- What the source says of the graph and its layout is so. -/
structure Source.Presents (source : Source) (g : Graph) (l : Layout) : Prop where
  header : source.header.Describes g l
  mem_entries : ∀ e, e ∈ source.map.entries ↔ e.Describes g l

namespace Source.Presents

variable {source : Source} {g : Graph} {l : Layout} (hp : source.Presents g l)
include hp

/-- What the map list names is an entry of it. -/
theorem describes_of_find? {kind : MapItemType} {e : MapEntry}
    (he : source.map.find? kind = some e) : e.Describes g l ∧ e.code = kind.code :=
  ⟨(hp.mem_entries e).mp (Array.mem_of_find?_eq_some he), by simpa using Array.find?_some he⟩

/-- What the map list does not name is no entry of it. -/
theorem not_describes_of_find? {kind : MapItemType} (hnone : source.map.find? kind = none)
    {e : MapEntry} (he : e.Describes g l) : e.code ≠ kind.code := by
  simpa using Array.find?_eq_none.mp hnone e ((hp.mem_entries e).mpr he)

variable {image : Bytes} {blocks : List Block} (h : FreshImage g l image blocks) (hg : g.Sound)
include h hg

/-- The ranges of the tables are those of the image, and a table without a range is empty. -/
theorem range {s : Section} (hs : s.rowSize? ≠ none) :
    (∀ range, source.range? s = some range → range.size.toNat = g.count s ∧
      (g.count s ≠ 0 → l.sectionOffset s = some range.offset)) ∧
      (source.range? s = none → g.count s = 0) := by
  have hheader (range : SectionRange) (hrange : source.header.table? s = some range) :
      range.size.toNat = g.count s ∧ (g.count s ≠ 0 → l.sectionOffset s = some range.offset) := by
    refine ⟨hp.header.tableSize s range hrange, fun hne => ?_⟩
    have hoffset := hp.header.tableOffset s range hrange
    rwa [if_neg hne] at hoffset
  have hplaced : placedCount g l s = g.count s :=
    h.placedCount_eq hg (by rintro rfl; exact hs rfl) (by rintro rfl; exact hs rfl)
  have hmap : (∀ range : SectionRange,
      ((source.map.find? s.mapItemType).map fun e => ⟨e.size, e.offset⟩) = some range →
        range.size.toNat = g.count s ∧ (g.count s ≠ 0 → l.sectionOffset s = some range.offset)) ∧
      (source.map.find? s.mapItemType = none → g.count s = 0) := by
    refine ⟨fun range hrange => ?_, fun hnone => ?_⟩
    · obtain ⟨e, he, rfl⟩ := Option.map_eq_some_iff.mp hrange
      obtain ⟨hdescribes, hcode⟩ := hp.describes_of_find? he
      obtain ⟨-, hsize, hleast⟩ := hdescribes.of_section hcode
      exact ⟨hsize.trans hplaced, fun _ => h.sectionOffset_iff.mpr hleast⟩
    · by_contra hne
      obtain ⟨o, ho⟩ := (h.named_iff s).mpr (.inl ⟨hs, hne⟩)
      have hsize : (g.count s).toUInt32.toNat = g.count s := toNat_toUInt32 (hg.coherent s).size_lt
      refine hp.not_describes_of_find? hnone (e := ⟨s.mapItemType.code, (g.count s).toUInt32, o⟩)
        (.inr (.inr (.inr ⟨s, rfl, ?_, ?_, h.leastOffset ho⟩))) rfl
      · rwa [hplaced]
      · rw [hplaced, hsize]
  cases s with
  | stringId | typeId | protoId | fieldId | methodId | classDef =>
    exact ⟨hheader, fun hnone => by cases hnone⟩
  | methodHandle | callSiteId =>
    exact ⟨hmap.1, fun hnone => hmap.2 (Option.map_eq_none_iff.mp hnone)⟩
  | _ => exact absurd rfl hs

theorem rowCount {s : Section} (hs : s.rowSize? ≠ none) : source.rowCount s = g.count s := by
  obtain ⟨hsome, hnone⟩ := hp.range h hg hs
  unfold Source.rowCount
  cases hrange : source.range? s with
  | some range => exact (hsome range hrange).1
  | none => exact (hnone hrange).symm

/-- The rows of a table lie where its entries do. -/
theorem row_eq {s : Section} {n : Nat} (hs : s.rowSize? = some n) {range : SectionRange}
    (hrange : source.range? s = some range) {r : Ref s} (hr : g.Has s r) {o : UInt32}
    (ho : (l.place r).offset = some o) : range.offset.toNat + r.pos * n = o.toNat := by
  have hrow : s.rowSize? ≠ none := by simp [hs]
  have hcount : g.count s ≠ 0 := Nat.ne_of_gt (Nat.zero_lt_of_lt hr)
  have hsection := ((hp.range h hg hrow).1 range hrange).2 hcount
  obtain ⟨⟨part, start, stop⟩, hmem, rfl⟩ := (h.parts_iff (.table s)).mp ⟨hrow, hcount⟩
  obtain ⟨ho', -, m, hm, hstop, hrows⟩ := h.recorded _ hmem
  have hsize := h.size_lt
  have hwithin := h.within _ hmem
  simp only at ho' hstop hwithin
  cases hs.symm.trans hm
  rw [Option.some.inj (hsection.symm.trans ho')]
  have hpos : 0 < n := by cases s <;> cases hs <;> decide
  have hlt := Nat.mul_lt_mul_of_pos_right hr hpos
  have hoffset := hrows r hr
  simp only at hoffset
  cases ho.symm.trans hoffset
  rw [toNat_toUInt32 (by omega), toNat_toUInt32 (by omega)]

end Source.Presents

/-! ## Tables whose turn it is -/

/-- The items that are read before the annotations have no links. -/
theorem Section.links_of_index_lt {s : Section} (hs : s.rowSize? = none) (hindex : s.index.val < 11)
    (x : s.Content) : s.links x = [] := by
  cases s with
  | stringData | typeList | encodedArray => rfl
  | annotationItem | annotationSet | annotationSetRefList | annotationsDirectory | debugInfo
  | codeItem | classData => exact absurd hindex (by decide)
  | _ => cases hs

namespace FreshImage

variable {source : Source} {g : Graph} {l : Layout} {blocks : List Block} {s : Section}
  (h : FreshImage g l source.data blocks) (hg : g.WellFormed) (hp : source.Presents g l)
include h hg hp

/-- When its turn has come, a table is admitted together with all that it leads to. -/
theorem admitsTable (hs : s.rowSize? ≠ none) {bound : Nat} (hbound : bound ≤ 11 ∨ s = .classDef) :
    (g.chart l s.turn).AdmitsTable source bound s where
  readable t o ht hholds v hv := by
    obtain ⟨hitem, r, x, hx, ho, hreach⟩ := hholds
    have hlinks (u : Section) (q : Ref u) (hq : ⟨u, some q⟩ ∈ t.links x) (y : u.Content)
        (hy : g.get? q = some y) : u.InReach s.turn y := by
      rcases hbound with hle | rfl
      · rw [Section.links_of_index_lt hitem (ht.trans_le hle)] at hq
        cases hq
      · have hinReach := hg.inReach_of_link hx hq hy
        rwa [if_pos hitem] at hinReach
    obtain ⟨y, item, -, hlt, hreads, -⟩ := h.exists_reads hx (hg.entities t r x hx) ho
      (h.finds_of_covers hg hv hx hreach hlinks)
    exact ⟨y, _, _, hreads, hlt⟩
  rows n range hn hrange i hi v hv := by
    have hcount := ((hp.range h hg.sound hs).1 range hrange).1
    have hpos : (Ref.ofPos i : Ref s).pos = i :=
      Ref.pos_ofPos ((hcount ▸ hi).trans (hg.sound.coherent s).size_lt)
    have hhas : g.Has s (.ofPos i) := by
      unfold Graph.Has
      rw [hpos, ← hcount]
      exact hi
    obtain ⟨o, ho⟩ := h.exists_offset hg hhas
    obtain ⟨x, hx⟩ := Graph.has_iff_exists.mp hhas
    have hstart := hp.row_eq h hg.sound hn hrange hhas ho
    rw [hpos] at hstart
    obtain ⟨y, item, -, -, hreads, -⟩ := h.exists_reads hx (hg.entities s _ x hx) ho
      (h.finds_of_covers hg hv hx (Section.inReach_row hs x) fun t q hq y hy => by
        have hinReach := hg.inReach_of_link hx hq hy
        rwa [if_neg hs] at hinReach)
    exact ⟨y, _, _, hstart ▸ hreads⟩

end FreshImage

/-! ## Reading the tables -/

theorem Section.turn_inj {s t : Section} (hs : s.rowSize? ≠ none) (h : t.turn = s.turn) :
    t = s := by
  cases s <;> first | exact absurd rfl hs | (cases t <;> first | rfl | cases h)

namespace Assembly

/-- The tables with turns below `k` have been read. -/
structure UpTo (source : Source) (g : Graph) (l : Layout) (k : Nat) (a : Assembly) : Prop where
  built : a.Built source ⟨.start source.header, 18⟩ (g.chart l k).rows
  on : a.On source.data (g.chart l k)
  beside : (Assembly.start source.header).graph.Beside a.graph

end Assembly

namespace FreshImage

variable {source : Source} {g : Graph} {l : Layout} {blocks : List Block}
  {a : Assembly}
  (h : FreshImage g l source.data blocks) (hg : g.WellFormed) (hp : source.Presents g l)
include h hg hp

/-- The table whose turn it is is read. -/
theorem establishes_turn {s : Section} {k bound : Nat} {step : Build Unit}
    (ha : a.UpTo source g l k) (hs : s.rowSize? ≠ none) (hturn : s.turn = k)
    (hbound : bound ≤ 11 ∨ s = .classDef)
    (hstep : (g.chart l k).rows s = 0 →
      Build.Establishes source (source.RefusesTable bound s a) step
        (fun _ a' => a'.Built source ⟨.start source.header, 18⟩
          (Function.update (g.chart l k).rows s (source.rowCount s)) ∧
            a.Passed source bound s a') a) :
    Build.Establishes source (fun _ => False) step (fun _ => Assembly.UpTo source g l (k + 1))
      a := by
  subst hturn
  have hadmits := h.admitsTable hg hp hs hbound
  have hrows : Function.update (g.chart l s.turn).rows s (source.rowCount s) =
      (g.chart l (s.turn + 1)).rows := by
    funext t
    by_cases ht : t = s
    · subst ht
      rw [Function.update_self, hp.rowCount h hg.sound hs]
      simp only [Graph.chart, if_pos (Nat.lt_succ_self _)]
    · have hturn : t.turn ≠ s.turn := fun heq => ht (Section.turn_inj hs heq)
      rw [Function.update_of_ne ht]
      simp only [Graph.chart]
      congr 1
      exact propext (by omega)
  refine ((hstep (if_neg (Nat.lt_irrefl _))).mono_error fun e he => he.2 _ hadmits ha.on).mono
    fun _ a' ⟨hbuilt, hpassed⟩ => ?_
  rw [hrows] at hbuilt
  refine ⟨hbuilt, ⟨fun t ht => (hbuilt.count t ht).ge, fun {t o} hfound => ?_⟩,
    ha.beside.trans hpassed.beside⟩
  obtain ⟨ht, r, x, hx, ho, hreach⟩ := (hpassed.on _ hadmits ha.on).find hfound
  exact ⟨ht, r, x, hx, ho, hreach.mono (Nat.le_succ _)⟩

end FreshImage

end DexGraph
