import DexGraph.Proofs.Assembly.Counterparts

/-!
# Completing what has been read

When the tables of an image that has been laid out anew have been read, the rest cannot fail either.
The hidden-API flags have the sizes that the classes ask for, the entries of the map list say what
has been read, and the link data is where the header says. `Assembly.Completes` is what becomes of
the assembly: its data items are put in the order of their offsets, and what is beside its entities
is that of the graph.
-/

namespace DexGraph

/-- What becomes of an assembly into which the tables have been read. -/
structure Assembly.Completes (g : Graph) (l : Layout) (a a' : Assembly) : Prop where
  row : ∀ s : Section, s.rowSize? ≠ none → a'.graph.entities s = a.graph.entities s
  item : ∀ s : Section, s.rowSize? = none →
    a'.graph.entities s = (a.known.get s).sort (a.graph.entities s)
  known : a'.known = a.known
  magic : a'.graph.magic = a.graph.magic
  endianTag : a'.graph.endianTag = a.graph.endianTag
  linkData : a'.graph.linkData = g.linkData
  hiddenapi : a'.graph.hiddenapi = g.hiddenapi
  hiddenapiSize : g.hiddenapi.isSome → a'.layout.hiddenapi.size = l.hiddenapi.size

/-! ## Entries of the map list -/

namespace Build

variable {g : Graph} {e : MapEntry} {s : Section}

/-- What has to be stated of a table is known from the header, if this names it. -/
theorem expectedRange?_row (header : FileHeader) (hs : s.rowSize? ≠ none) :
    expectedRange? header g e s.mapItemType =
      some ((header.table? s).getD ⟨(g.count s).toUInt32, e.offset⟩) := by
  cases s <;> first | rfl | exact absurd rfl hs

theorem expectedRange?_item (header : FileHeader) (hs : s.rowSize? = none) :
    expectedRange? header g e s.mapItemType = none := by
  cases s <;> first | rfl | cases hs

end Build

namespace FreshImage

open Build

variable {source : Source} {g g' : Graph} {l : Layout} {blocks : List Block} {e : MapEntry}
  {a : Assembly}
  (h : FreshImage g l source.data blocks) (hg : g.Sound) (hp : source.Presents g l)
include h hg hp

/-- The entries of the map list state what they have to. -/
theorem eq_expectedRange (hcount : ∀ s : Section, s.rowSize? ≠ none → g'.count s = g.count s)
    (he : e.Describes g l) {kind : MapItemType} (hkind : e.kind? = some kind)
    {expected : SectionRange} (hexpected : expectedRange? source.header g' e kind = some expected) :
    e.size = expected.size ∧ e.offset = expected.offset := by
  have hcode (kind' : MapItemType) (hcode : e.code = kind'.code) : kind = kind' := by
    unfold MapEntry.kind? at hkind
    rw [hcode, MapItemType.ofCode?_code] at hkind
    exact (Option.some.inj hkind).symm
  rcases id he with rfl | rfl | ⟨-, o, -, rfl⟩ | ⟨s, hs, hplaced, hsize, hleast⟩
  · obtain rfl := hcode .headerItem rfl
    cases hexpected
    exact ⟨rfl, rfl⟩
  · obtain rfl := hcode .mapList rfl
    cases hexpected
    exact ⟨rfl, hp.header.mapOffset.symm⟩
  · obtain rfl := hcode .hiddenapiClassData rfl
    cases hexpected
  · obtain rfl := hcode _ hs
    cases hrow : s.rowSize? with
    | none =>
      rw [expectedRange?_item _ hrow] at hexpected
      cases hexpected
    | some n =>
      have hrow : s.rowSize? ≠ none := by simp [hrow]
      rw [expectedRange?_row _ hrow, Option.some.injEq] at hexpected
      rw [h.placedCount_eq hg (by rintro rfl; exact hrow rfl) (by rintro rfl; exact hrow rfl)]
        at hplaced hsize
      cases htable : source.header.table? s with
      | none =>
        rw [htable, hcount s hrow] at hexpected
        subst hexpected
        refine ⟨UInt32.toNat_inj.mp ?_, rfl⟩
        exact hsize.trans (toNat_toUInt32 (hg.coherent s).size_lt).symm
      | some range =>
        rw [htable] at hexpected
        subst hexpected
        have hoffset := hp.header.tableOffset s _ htable
        rw [if_neg hplaced, h.sectionOffset_iff] at hoffset
        exact ⟨UInt32.toNat_inj.mp (hsize.trans (hp.header.tableSize s _ htable).symm),
          hleast.unique hoffset⟩

/-- No entry of the map list is refused, and only the offsets of sections are changed. -/
theorem establishes_checkEntries
    (hcount : ∀ s : Section, s.rowSize? ≠ none → a.graph.count s = g.count s) :
    Establishes source (fun _ => False) (source.map.entries.forM checkEntry) (fun _ a' =>
      a'.graph = a.graph ∧ a'.known = a.known ∧ a'.layout.hiddenapi = a.layout.hiddenapi) a := by
  refine establishes_forM_array (I := fun a' => a'.graph = a.graph ∧ a'.known = a.known ∧
    a'.layout.hiddenapi = a.layout.hiddenapi) (fun e he a' ha' => ?_) ⟨rfl, rfl, rfl⟩
  have hdescribes := (hp.mem_entries e).mp he
  unfold checkEntry
  cases hkind : e.kind? with
  | none => exact ha'
  | some kind =>
    dsimp only
    rw [establishes_bind, establishes_read, establishes_bind, establishes_get, ha'.1]
    cases hexpected : expectedRange? source.header a.graph e kind with
    | some expected =>
      obtain ⟨hsize, hoffset⟩ := h.eq_expectedRange hg hp hcount hdescribes hkind hexpected
      rw [establishes_ite]
      refine ⟨fun hne => ?_, fun _ => ha'⟩
      simp [hsize, hoffset] at hne
    | none =>
      cases dataSectionOf? kind with
      | some s => exact ha'
      | none => exact ha'

omit hg in
/-- The link data is copied. -/
theorem establishes_linkData (hempty : a.graph.linkData = #[]) :
    Establishes source (fun _ => False) (linkData source.header.link)
      (fun _ a' => a' = { a with graph := { a.graph with linkData := g.linkData } }) a := by
  have hsize := hp.header.linkSize
  unfold linkData
  rw [establishes_ite]
  refine ⟨fun hzero => ?_, fun hne => ?_⟩
  · have hlink : g.linkData = #[] := by
      rw [← Array.size_eq_zero_iff, ← hsize, beq_iff_eq.mp hzero]
      rfl
    rw [establishes_pure, hlink, ← hempty]
  · have hne : g.linkData.size ≠ 0 := by
      rw [← hsize]
      simpa [← UInt32.toNat_inj] using hne
    obtain ⟨⟨part, start, stop⟩, hmem, rfl⟩ := (h.parts_iff .linkData).mp hne
    obtain ⟨hoffset, hstop, -⟩ := h.recorded _ hmem
    obtain ⟨content, rfl, -, hat⟩ := h.holds _ hmem (by simp)
    have hwithin := h.within _ hmem
    have hlt := h.size_lt
    simp only [Stream.toBytes_ofBytes] at hat hoffset hstop hwithin
    have hslice : source.data.slice? source.header.link.offset.toNat
        source.header.link.size.toNat = some g.linkData := by
      rw [hp.header.linkOffset, hoffset, hsize, toNat_toUInt32 (by omega)]
      exact Bytes.slice?_of_holdsAt hat (by omega)
    rw [establishes_bind, establishes_read, hslice]
    rfl

end FreshImage

namespace Assembly.UpTo

open Build

variable {source : Source} {g : Graph} {l : Layout} {blocks : List Block} {a : Assembly}
  (ha : a.UpTo source g l 8) (h : FreshImage g l source.data blocks)
  (hg : g.WellFormed) (hp : source.Presents g l)
include ha h hg hp

/-- The hidden-API flags are read, if there are any. -/
theorem establishes_hiddenapi : Establishes source (fun _ => False)
    (mapSection .hiddenapiClassData Build.hiddenapi) (fun _ a' =>
      a'.graph = { a.graph with hiddenapi := g.hiddenapi } ∧ a'.known = a.known ∧
        (g.hiddenapi.isSome → a'.layout.hiddenapi.size = l.hiddenapi.size)) a := by
  unfold mapSection
  rw [establishes_bind, establishes_read]
  cases hentry : source.map.find? .hiddenapiClassData with
  | none =>
    have hnone : g.hiddenapi = none := by
      by_contra hne
      obtain ⟨flags, hflags⟩ := Option.ne_none_iff_exists'.mp hne
      obtain ⟨o, ho, -⟩ := h.hiddenapi_holdsAt hflags
      exact hp.not_describes_of_find? hentry (e := ⟨_, 1, o⟩)
        (.inr (.inr (.inl ⟨by rw [hflags]; rfl, o, ho, rfl⟩))) rfl
    have hstart : a.graph.hiddenapi = none := ha.beside.hiddenapi
    rw [establishes_pure]
    exact ⟨by rw [hnone, ← hstart], rfl, by simp [hnone]⟩
  | some entry =>
    obtain ⟨hdescribes, hcode⟩ := hp.describes_of_find? hentry
    obtain ⟨hsome, hoffset⟩ := hdescribes.of_hiddenapi hcode
    obtain ⟨flags, hflags⟩ := Option.isSome_iff_exists.mp hsome
    obtain ⟨o, ho, hreads⟩ := h.reads_hiddenapi hg.flagsFit hflags (hg.hiddenapi flags hflags)
    cases hoffset.symm.trans ho
    unfold Build.hiddenapi
    rw [establishes_bind, establishes_read, establishes_bind, establishes_get, establishes_bind,
      ha.memberCounts h hg hp, hreads]
    exact ⟨by rw [hflags], rfl, fun _ => rfl⟩

/-- Nothing is refused any more, and the assembly is completed. -/
theorem establishes_complete : Establishes source (fun _ => False) (do
    mapSection .hiddenapiClassData Build.hiddenapi
    source.map.entries.forM checkEntry
    Section.dataSections.forM sortSection
    linkData source.header.link) (fun _ a' => a.Completes g l a') a := by
  refine (ha.establishes_hiddenapi h hg hp).bind fun _ a₁ ⟨hgraph, hknown, hsize⟩ => ?_
  have hentities (s : Section) : a₁.graph.entities s = a.graph.entities s := by
    rw [hgraph]
    cases s <;> rfl
  have hcount (s : Section) (hs : s.rowSize? ≠ none) : a₁.graph.count s = g.count s := by
    unfold Graph.count
    rw [hentities]
    exact ha.count_row hs
  refine (h.establishes_checkEntries hg.sound hp hcount).bind
    fun _ a₂ ⟨hgraph₂, hknown₂, hplace⟩ => ?_
  refine (establishes_sortSections (by decide)).bind
    fun _ a₃ ⟨hlayout, hafter, hbeside, hsorted⟩ => ?_
  have hempty : a₃.graph.linkData = #[] := by
    rw [hbeside.linkData, hgraph₂, hgraph]
    exact ha.beside.linkData
  refine (h.establishes_linkData hp hempty).mono fun _ a' ha' => ?_
  subst ha'
  have hlinked (s : Section) :
      Graph.entities { a₃.graph with linkData := g.linkData } s = a₃.graph.entities s := by
    cases s <;> rfl
  refine ⟨fun s hs => ?_, fun s hs => ?_, ?_, ?_, ?_, rfl, ?_, fun hsome => ?_⟩
  · rw [hlinked, hsorted, if_neg (mt Section.mem_dataSections.mp hs), hgraph₂, hentities]
  · rw [hlinked, hsorted, if_pos (Section.mem_dataSections.mpr hs), hgraph₂, hentities, hknown₂,
      hknown]
  · exact hafter.trans (hknown₂.trans hknown)
  · exact hbeside.magic.trans (by rw [hgraph₂, hgraph])
  · exact hbeside.endianTag.trans (by rw [hgraph₂, hgraph])
  · exact hbeside.hiddenapi.trans (by rw [hgraph₂, hgraph])
  · change a₃.layout.hiddenapi.size = _
    rw [hlayout, hplace, hsize hsome]

end Assembly.UpTo

end DexGraph
