import DexGraph.Proofs.Assembly.CapturedOffsets
import DexGraph.Proofs.Assembly.Completion

/-!
# What is read beside the entities

Beside the entities and their places, a graph that is read has the magic, the endian tag, the
hidden-API flags and the link data of the image, and the layout has the fields of the header and the
offsets of sections. `Assembly.Outlined` says where all of this comes from: the offset of a table is
that of its first row, the offset of a section of data items is one that the map list states for it,
and what the map list states otherwise agrees with the header and with what has been read.
`Build.establishes_outlined` says that assembling a graph leaves it so.
-/

namespace DexGraph

theorem Build.dataSectionOf?_eq_some_iff {kind : MapItemType} {s : Section} :
    dataSectionOf? kind = some s ↔ s.rowSize? = none ∧ s.mapItemType = kind := by
  unfold dataSectionOf?
  constructor
  · intro h
    have hkind := List.find?_some h
    exact ⟨Section.mem_dataSections.mp (List.mem_of_find?_eq_some h), by simpa using hkind⟩
  · rintro ⟨hs, rfl⟩
    cases s <;> first | rfl | cases hs

/-- The members of the classes are counted in the items alone. -/
theorem Graph.memberCounts_congr {g g' : Graph}
    (h : ∀ s, (g'.entities s).items = (g.entities s).items) :
    g'.classDefs.items.map g'.memberCount = g.classDefs.items.map g.memberCount := by
  have hget (r : Ref .classData) : g'.get? r = g.get? r := by
    unfold get? Collection.get?
    rw [h]
  have hcount : g'.memberCount = g.memberCount := by
    funext c
    simp only [memberCount, funext hget]
  have hitems : g'.classDefs.items = g.classDefs.items := h .classDef
  rw [hitems, hcount]

theorem Build.expectedRange?_congr (header : FileHeader) {g g' : Graph} (e : MapEntry)
    (kind : MapItemType) (h : ∀ s, (g'.entities s).items = (g.entities s).items) :
    expectedRange? header g' e kind = expectedRange? header g e kind := by
  have hsize (s : Section) : (g'.entities s).size = (g.entities s).size := by
    unfold Collection.size
    rw [h]
  have hsites : g'.callSiteIds.size = g.callSiteIds.size := hsize .callSiteId
  have hhandles : g'.methodHandles.size = g.methodHandles.size := hsize .methodHandle
  cases kind <;> simp only [expectedRange?, hsites, hhandles]

namespace Assembly

variable {source : Source} {entries : List MapEntry} {a a' : Assembly}

/-- The hidden-API flags are those of the section that the map list names; there are none if it
names no such section. -/
def FlagsRead (source : Source) (a : Assembly) : Prop :=
  match source.map.find? .hiddenapiClassData with
  | some e => ∃ total flags q, (HiddenApi.decode (a.graph.classDefs.items.map
      a.graph.memberCount)).Reads source.data e.offset.toNat (total, flags) q ∧
      a.graph.hiddenapi = some flags ∧
      a.layout.hiddenapi = ⟨if source.options.keepOffsets then some e.offset else none, total⟩
  | none => a.graph.hiddenapi = none

theorem FlagsRead.congr (h : a.FlagsRead source)
    (hitems : ∀ s, (a'.graph.entities s).items = (a.graph.entities s).items)
    (hgraph : a'.graph.hiddenapi = a.graph.hiddenapi)
    (hlayout : a'.layout.hiddenapi = a.layout.hiddenapi) : a'.FlagsRead source := by
  unfold FlagsRead at h ⊢
  rwa [Graph.memberCounts_congr hitems, hgraph, hlayout]

/-- The second assembly is the first one after the given entries of the map list have been checked:
they state what is known otherwise, and only offsets of sections of data items have been set. -/
structure Checked (source : Source) (entries : List MapEntry) (a a' : Assembly) : Prop where
  graph : a'.graph = a.graph
  rest : a'.layout = { a.layout with sections := a'.layout.sections }
  table : ∀ s : Section, s.rowSize? ≠ none → a'.layout.sectionOffset s = a.layout.sectionOffset s
  stated : ∀ e ∈ entries, ∀ kind expected, e.kind? = some kind →
    Build.expectedRange? source.header a.graph e kind = some expected →
    e.size = expected.size ∧ e.offset = expected.offset
  named : ∀ e ∈ entries, ∀ s : Section, s.rowSize? = none → e.kind? = some s.mapItemType →
    ∃ e' ∈ entries, e'.kind? = some s.mapItemType ∧ a'.layout.sectionOffset s = some e'.offset

theorem Checked.refl (source : Source) (a : Assembly) : Checked source [] a a where
  graph := rfl
  rest := rfl
  table _ _ := rfl
  stated _ he := nomatch he
  named _ he := nomatch he

/-- An entry that sets no offset. -/
theorem Checked.pass (h : Checked source entries a a') {e : MapEntry}
    (hstated : ∀ kind expected, e.kind? = some kind →
      Build.expectedRange? source.header a.graph e kind = some expected →
      e.size = expected.size ∧ e.offset = expected.offset)
    (hne : ∀ s : Section, s.rowSize? = none → e.kind? ≠ some s.mapItemType) :
    Checked source (entries ++ [e]) a a' where
  graph := h.graph
  rest := h.rest
  table := h.table
  stated e' he' := by
    rcases List.mem_append.mp he' with he' | he'
    · exact h.stated e' he'
    · obtain rfl := List.mem_singleton.mp he'
      exact hstated
  named e' he' s hs hkind := by
    rcases List.mem_append.mp he' with he' | he'
    · obtain ⟨e'', hmem, hrest⟩ := h.named e' he' s hs hkind
      exact ⟨e'', List.mem_append_left _ hmem, hrest⟩
    · obtain rfl := List.mem_singleton.mp he'
      exact absurd hkind (hne s hs)

/-- An entry that sets the offset of the section that it names. -/
theorem Checked.set (h : Checked source entries a a') {e : MapEntry} {s : Section}
    (hs : s.rowSize? = none) (hkind : e.kind? = some s.mapItemType) :
    Checked source (entries ++ [e]) a
      { a' with layout := a'.layout.setSectionOffset s (some e.offset) } where
  graph := h.graph
  rest := congrArg (fun l : Layout =>
    { l with sections := (a'.layout.setSectionOffset s (some e.offset)).sections }) h.rest
  table t ht := by
    have hne : s ≠ t := by
      rintro rfl
      exact ht hs
    change (a'.layout.setSectionOffset s _).sectionOffset t = _
    rw [Layout.sectionOffset_setSectionOffset, if_neg hne, h.table t ht]
  stated e' he' kind expected hkind' hexpected := by
    rcases List.mem_append.mp he' with he' | he'
    · exact h.stated e' he' kind expected hkind' hexpected
    · obtain rfl := List.mem_singleton.mp he'
      obtain rfl := Option.some.inj (hkind.symm.trans hkind')
      rw [Build.expectedRange?_item _ hs] at hexpected
      cases hexpected
  named e' he' t ht hkind' := by
    change ∃ e'' ∈ _, _ ∧ (a'.layout.setSectionOffset s _).sectionOffset t = _
    rw [Layout.sectionOffset_setSectionOffset]
    by_cases hst : s = t
    · subst hst
      exact ⟨e, List.mem_append_right _ (List.mem_singleton_self e), hkind, if_pos rfl⟩
    · rcases List.mem_append.mp he' with he' | he'
      · obtain ⟨e'', hmem, hkind'', hoffset⟩ := h.named e' he' t ht hkind'
        exact ⟨e'', List.mem_append_left _ hmem, hkind'', (if_neg hst).trans hoffset⟩
      · obtain rfl := List.mem_singleton.mp he'
        exact absurd (Section.mapItemType_inj (Option.some.inj (hkind.symm.trans hkind'))) hst

/-- What the assembly has beside the entities and their places is what the image says. -/
structure Outlined (source : Source) (a : Assembly) : Prop where
  magic : a.graph.magic = source.header.magic
  endianTag : a.graph.endianTag = source.header.endianTag
  rest : a.layout = { Layout.ofHeader source.header with
    sections := a.layout.sections, hiddenapi := a.layout.hiddenapi }
  table : ∀ s range, source.range? s = some range → a.layout.sectionOffset s = some range.offset
  stated : ∀ e ∈ source.map.entries, ∀ kind expected, e.kind? = some kind →
    Build.expectedRange? source.header a.graph e kind = some expected →
    e.size = expected.size ∧ e.offset = expected.offset
  named : ∀ e ∈ source.map.entries, ∀ s : Section, s.rowSize? = none →
    e.kind? = some s.mapItemType → ∃ e' ∈ source.map.entries, e'.kind? = some s.mapItemType ∧
      a.layout.sectionOffset s = some e'.offset
  hiddenapi : a.FlagsRead source
  linkData : (if source.header.link.size = 0 then some #[] else
    source.data.slice? source.header.link.offset.toNat source.header.link.size.toNat) =
      some a.graph.linkData

end Assembly

/-! ## Assembling -/

namespace Build

variable {source : Source} {a : Assembly}

/-- The map list names the section of hidden-API flags, and then they are read. -/
theorem establishes_flagsRead (hnone : a.graph.hiddenapi = none) :
    Establishes source (fun _ => True) (mapSection .hiddenapiClassData hiddenapi)
      (fun _ a' => a'.FlagsRead source ∧ a'.graph = { a.graph with hiddenapi := a'.graph.hiddenapi } ∧
        a'.layout = { a.layout with hiddenapi := a'.layout.hiddenapi }) a := by
  unfold mapSection
  rw [establishes_bind, establishes_read]
  cases hentry : source.map.find? .hiddenapiClassData with
  | none =>
    refine ⟨?_, rfl, rfl⟩
    unfold Assembly.FlagsRead
    rwa [hentry]
  | some e =>
    unfold hiddenapi
    rw [establishes_bind, establishes_read, establishes_bind, establishes_get, establishes_bind,
      establishes_ofExcept]
    refine ⟨fun out hout => ⟨?_, rfl, rfl⟩, fun _ _ => trivial⟩
    unfold Assembly.FlagsRead
    rw [hentry]
    exact ⟨out.1.1, out.1.2, out.2, hout, rfl, rfl⟩

theorem establishes_checkEntry_checked {entries : List MapEntry} {a₀ : Assembly} (e : MapEntry)
    (h : Assembly.Checked source entries a₀ a) :
    Establishes source (fun _ => True) (checkEntry e)
      (fun _ => Assembly.Checked source (entries ++ [e]) a₀) a := by
  unfold checkEntry
  cases hkind : e.kind? with
  | none =>
    exact h.pass (fun kind _ hkind' => by cases hkind.symm.trans hkind') fun s _ => by simp [hkind]
  | some kind =>
    have hsame {kind' : MapItemType} (hkind' : e.kind? = some kind') : kind' = kind :=
      Option.some.inj (hkind'.symm.trans hkind)
    dsimp only
    rw [establishes_bind, establishes_read, establishes_bind, establishes_get, h.graph]
    cases hexpected : expectedRange? source.header a₀.graph e kind with
    | some expected =>
      rw [establishes_ite]
      refine ⟨fun _ => trivial, fun heq => h.pass (fun kind' expected' hkind' hexpected' => ?_)
        fun s hs hkind' => ?_⟩
      · obtain rfl := hsame hkind'
        obtain rfl := Option.some.inj (hexpected.symm.trans hexpected')
        simpa using heq
      · rw [← hsame hkind', expectedRange?_item _ hs] at hexpected
        cases hexpected
    | none =>
      cases hsection : dataSectionOf? kind with
      | some s =>
        obtain ⟨hs, rfl⟩ := dataSectionOf?_eq_some_iff.mp hsection
        exact h.set hs hkind
      | none =>
        refine h.pass (fun kind' expected hkind' hexpected' => ?_) fun s hs hkind' => ?_
        · rw [hsame hkind', hexpected] at hexpected'
          cases hexpected'
        · rw [dataSectionOf?_eq_some_iff.mpr ⟨hs, hsame hkind'⟩] at hsection
          cases hsection

/-- Entries are checked one after the other. -/
theorem establishes_checkEntries {entries : List MapEntry} {a₀ : Assembly} (rest : List MapEntry)
    (h : Assembly.Checked source entries a₀ a) :
    Establishes source (fun _ => True) (rest.forM checkEntry)
      (fun _ => Assembly.Checked source (entries ++ rest) a₀) a := by
  induction rest generalizing entries a with
  | nil =>
    rw [List.append_nil]
    exact h
  | cons e rest ih =>
    refine (establishes_checkEntry_checked e h).bind fun _ a' h' => ?_
    rw [List.append_cons]
    exact ih h'

/-- The whole map list is checked. -/
theorem establishes_mapEntries : Establishes source (fun _ => True)
    (source.map.entries.forM checkEntry)
      (fun _ => Assembly.Checked source source.map.entries.toList a) a := by
  have hlist : source.map.entries.forM checkEntry = source.map.entries.toList.forM checkEntry := by
    cases source.map.entries
    simp
  rw [hlist]
  exact establishes_checkEntries _ (.refl source a)

theorem establishes_linkData_outlined (range : SectionRange) (hempty : a.graph.linkData = #[]) :
    Establishes source (fun _ => True) (linkData range) (fun _ a' =>
      a' = { a with graph := { a.graph with linkData := a'.graph.linkData } } ∧
        (if range.size = 0 then some #[] else
          source.data.slice? range.offset.toNat range.size.toNat) = some a'.graph.linkData) a := by
  unfold linkData
  rw [establishes_ite]
  refine ⟨fun hzero => ⟨rfl, ?_⟩, fun hne => ?_⟩
  · rw [if_pos (beq_iff_eq.mp hzero), hempty]
  · rw [establishes_bind, establishes_read, if_neg (by simpa using hne)]
    cases source.data.slice? range.offset.toNat range.size.toNat with
    | some bytes => exact ⟨rfl, rfl⟩
    | none => trivial

/-- What is assembled has beside its entities what the image says. -/
theorem establishes_outlined (hsize : source.data.size < 2 ^ 32)
    (hload : source.options.loadHiddenapi = true) :
    Establishes source (fun _ => True) all (fun _ => Assembly.Outlined source)
      (.start source.header) := by
  refine establishes_all_of_rest hsize (built_start source source.header 18) (fun _ _ => trivial)
    fun a _ _ _ hopened => ?_
  rw [establishes_ite]
  refine ⟨fun _ => ?_, fun hno => absurd hload hno⟩
  refine (establishes_flagsRead hopened.beside.hiddenapi).bind
    fun _ a₁ ⟨hflags, hgraph₁, hlayout₁⟩ => ?_
  refine establishes_mapEntries.bind fun _ a₂ hchecked => ?_
  refine (establishes_sortSections (by decide)).bind
    fun _ a₃ ⟨hlayout₃, _, hbeside, hsorted⟩ => ?_
  have hempty : a₃.graph.linkData = #[] := by
    rw [hbeside.linkData, hchecked.graph, hgraph₁]
    exact hopened.beside.linkData
  refine (establishes_linkData_outlined _ hempty).mono fun _ a' ⟨ha', hlink⟩ => ?_
  have hlayout : a'.layout = a₂.layout := by
    rw [ha', ← hlayout₃]
  have hitems (s : Section) : (a'.graph.entities s).items = (a₁.graph.entities s).items := by
    have hlinked : a'.graph.entities s = a₃.graph.entities s := by
      rw [ha']
      cases s <;> rfl
    rw [hlinked, hsorted, ← hchecked.graph]
    split <;> rfl
  have hmagic : a'.graph.magic = a.graph.magic := by
    rw [ha']
    exact hbeside.magic.trans (by rw [hchecked.graph, hgraph₁])
  have htag : a'.graph.endianTag = a.graph.endianTag := by
    rw [ha']
    exact hbeside.endianTag.trans (by rw [hchecked.graph, hgraph₁])
  have hsame : a'.graph.hiddenapi = a₁.graph.hiddenapi := by
    rw [ha']
    exact hbeside.hiddenapi.trans (by rw [hchecked.graph])
  constructor
  case magic => exact hmagic.trans hopened.beside.magic
  case endianTag => exact htag.trans hopened.beside.endianTag
  case rest =>
    rw [hlayout, hchecked.rest, hlayout₁, hopened.rest]
    rfl
  case table =>
    intro s range hrange
    have hs : s ∈ Section.tables := by
      cases s <;> first | decide | cases hrange
    rw [hlayout, hchecked.table s (Section.mem_tables.mp hs),
      ← hopened.sectionOffset s hs range hrange, hlayout₁]
    rfl
  case stated =>
    intro e he kind expected hkind hexpected
    rw [expectedRange?_congr _ e kind hitems] at hexpected
    exact hchecked.stated e (Array.mem_toList_iff.mpr he) kind expected hkind hexpected
  case named =>
    intro e he s hs hkind
    obtain ⟨e', he', hkind', hoffset⟩ :=
      hchecked.named e (Array.mem_toList_iff.mpr he) s hs hkind
    rw [hlayout]
    exact ⟨e', Array.mem_toList_iff.mp he', hkind', hoffset⟩
  case hiddenapi =>
    refine hflags.congr hitems hsame ?_
    rw [hlayout, hchecked.rest]
  case linkData => exact hlink

end Build

end DexGraph
