import DexGraph.Dex
import DexGraph.Proofs.Assembly.Items

/-!
# Assembling whole graphs

A built assembly is valid, all its methods are registered, it holds exactly the entries of the
tables that have been read, and every offset of which it knows the item has been met: in a row, or
in an item at an offset that has been met. `Build.establishes_all` says that assembling a graph
keeps all of this, never fails because an item is there twice, and fails for want of a method handle
only where the table of these has not been read yet or has no entry of that index. A table never
fails where a chart admits its rows and the assembly is on the chart, and then it stays there.
-/

namespace DexGraph

/-! ## What has been built -/

namespace Source

/-- A row of a table holds the pointer. -/
def InRow (source : Source) (v : View) (t : Pointer) : Prop :=
  ∃ (s : Section) (size : Nat) (range : SectionRange) (i : Nat) (x : s.Content)
    (met : List Pointer) (q : Nat), s.rowSize? = some size ∧ source.range? s = some range ∧
      i < range.size.toNat ∧
      s.survey.Reads v source.data (range.offset.toNat + i * size) x met q ∧ t ∈ met

/-- The pointer is met when the image is read: a row holds it, or a row holds a pointer that leads
to it. -/
def Met (source : Source) (v : View) (t : Pointer) : Prop :=
  ∃ root, source.InRow v root ∧ Relation.ReflTransGen (v.Leads source.data) root t

/-- The number of entries that the image has for a table. -/
def rowCount (source : Source) (s : Section) : Nat :=
  match source.range? s with
  | some range => range.size.toNat
  | none => 0

/-- Why the image may be refused: not because an item is there twice, and for want of a method
handle only where the table of these has not been read yet or has no entry of that index. -/
structure Refuses (source : Source) (e : Error) : Prop where
  not_duplicate : ¬ e.IsDuplicate
  missing_methodHandle : ∀ i n, e = .missingReference .methodHandle i n →
    n ≤ i.toNat ∧ (n = 0 ∨ n = source.rowCount .methodHandle)

theorem Refuses.of_plain {source : Source} {e : Error} (h : e.Plain) : source.Refuses e :=
  ⟨h.not_duplicate, fun i n he => absurd he (h.not_missing _ i n)⟩

theorem Refuses.of_honest {source : Source} {g : Graph} {e : Error} (h : e.Honest g)
    (hg : g.count .methodHandle = 0 ∨ g.count .methodHandle = source.rowCount .methodHandle) :
    source.Refuses e :=
  ⟨h.not_duplicate, fun i n he => by
    obtain ⟨rfl, hle⟩ := h.missing .methodHandle i n he (by decide)
    exact ⟨hle, hg⟩⟩

end Source

/-- An assembly to which later ones are compared, and the number of the first section of data
items that does not grow any more. -/
structure Mark where
  assembly : Assembly
  bound : Nat

/-- The assembly has all that there was at the mark, and no more data items in the sections that do
not grow any more. -/
structure Assembly.Since (source : Source) (mark : Mark) (a : Assembly) : Prop where
  within : (mark.assembly.view source.data).Within (a.view source.data)
  count : ∀ s : Section, s.rowSize? = none → mark.bound ≤ s.index.val →
    a.graph.count s = mark.assembly.graph.count s

/-- What holds of an assembly that has so many entries of each table and has grown since the
mark. -/
structure Assembly.Built (source : Source) (mark : Mark) (rows : Section → Nat) (a : Assembly) :
    Prop where
  valid : a.Valid source
  registered : a.graph.Registered
  since : a.Since source mark
  met : ∀ s o, ((a.view source.data).find? s o).isSome →
    ∀ v, (a.view source.data).Within v → source.Met v ⟨s, o⟩
  count : ∀ s : Section, s.rowSize? ≠ none → a.graph.count s = rows s

/-- What holds of an assembly into which a whole image has been read. When its classes were
complete there were no method handles yet, and the data items that have come since are arrays of
call sites. -/
structure Assembly.Complete (source : Source) (a classes : Assembly) : Prop where
  built : a.Built source ⟨classes, 11⟩ source.rowCount
  classes_built : ∃ mark rows, classes.Built source mark rows ∧ rows .methodHandle = 0 ∧
    rows .classDef = source.rowCount .classDef

namespace Assembly

variable {source : Source} {mark : Mark} {rows : Section → Nat} {a a' : Assembly}

/-- The mark can be set anew at any time. -/
theorem Built.now (h : a.Built source mark rows) (bound : Nat) : a.Built source ⟨a, bound⟩ rows :=
  { h with since := ⟨.refl _, fun _ _ _ => rfl⟩ }

/-- Neither the order of entities nor anything beside them and their places matters. -/
theorem Built.of_items (h : a.Built source mark rows) (hknown : a'.known = a.known)
    (hcoherent : ∀ s, (a'.graph.entities s).Coherent)
    (hitems : ∀ s, (a'.graph.entities s).items = (a.graph.entities s).items)
    (hmethods : a'.graph.methodItems = a.graph.methodItems)
    (hplace : ∀ (s : Section) (r : Ref s), a'.layout.place r = a.layout.place r) :
    a'.Built source mark rows := by
  have hget {s : Section} (r : Ref s) : a'.graph.get? r = a.graph.get? r := by
    unfold Graph.get? Collection.get?
    rw [hitems]
  have hcount (s : Section) : a'.graph.count s = a.graph.count s := by
    unfold Graph.count Collection.size
    rw [hitems]
  obtain ⟨hvalid, hwithin⟩ := h.valid.of_same hknown hcoherent hcount
    (fun s r y hy => ⟨y, (hget r).symm.trans hy, rfl⟩) hplace
  refine ⟨hvalid, h.registered.of_same hget (fun d x hd => (hget d).trans hd) hmethods,
    ⟨h.since.within.trans hwithin, fun s hs hb => (hcount s).trans (h.since.count s hs hb)⟩,
    fun s o ho v hv => h.met s o ?_ v (hwithin.trans hv), fun s hs => ?_⟩
  · simpa only [view, hknown] using ho
  · rw [hcount, h.count s hs]

/-- Only notes that no image stores are changed. -/
structure Noted (source : Source) (a a' : Assembly) : Prop where
  valid : a'.Valid source
  within : (a.view source.data).Within (a'.view source.data)
  registered : a'.graph.Registered
  beside : a.Beside a'
  known : a'.known = a.known
  count : ∀ s, a'.graph.count s = a.graph.count s

/-- An assembly in which no more has been found stays on a chart. -/
theorem On.of_known {data : Bytes} {chart : Chart} (h : a.On data chart) (hknown : a'.known = a.known)
    (hcount : ∀ s, a.graph.count s ≤ a'.graph.count s) : a'.On data chart where
  rows s hs := (h.rows s hs).trans (hcount s)
  find hfound := h.find (by simpa only [view, hknown] using hfound)

end Assembly

/-- All rows of a table can be followed as soon as all of the chart has been found. -/
structure Chart.AdmitsTable (chart : Chart) (source : Source) (bound : Nat) (s : Section) : Prop where
  readable : chart.Readable source.data bound
  rows : ∀ size range, s.rowSize? = some size → source.range? s = some range →
    ∀ i < range.size.toNat, ∀ v : View, v.Covers chart →
      ∃ x met q, s.survey.Reads v source.data (range.offset.toNat + i * size) x met q

theorem Chart.AdmitsTable.admits {chart : Chart} {source : Source} {bound : Nat} {s : Section}
    (h : chart.AdmitsTable source bound s) {a : Assembly} (ha : a.On source.data chart) {size : Nat}
    {range : SectionRange} (hs : s.rowSize? = some size) (hrange : source.range? s = some range)
    {i : Nat} (hi : i < range.size.toNat) :
    chart.Admits source.data bound s.survey (range.offset.toNat + i * size) a :=
  ⟨h.readable, ha, fun v hv _ => h.rows size range hs hrange i hi v hv⟩

/-- Why a table may be refused: not if the assembly is on a chart that admits the table. -/
def Source.RefusesTable (source : Source) (bound : Nat) (s : Section) (a : Assembly) (e : Error) :
    Prop :=
  source.Refuses e ∧ ∀ chart : Chart, chart.AdmitsTable source bound s → ¬ a.On source.data chart

/-- Beside the places of entities the layout is the same, but the table starts where the image has
it, if it has one. -/
structure Layout.Opens (source : Source) (s : Section) (l l' : Layout) : Prop where
  rest : l' = { l with sections := l'.sections }
  sectionOffset : ∀ range, source.range? s = some range → l'.sectionOffset s = some range.offset
  sectionOffset_of_ne : ∀ t, t ≠ s → l'.sectionOffset t = l.sectionOffset t

theorem Layout.Opens.trans {source : Source} {s : Section} {l l' l'' : Layout}
    (h : l.Opens source s l') (h' : l'.Beside l'') : l.Opens source s l'' where
  rest := by
    rw [h'.rest, h.rest]
  sectionOffset range hrange := (h'.sectionOffset s).trans (h.sectionOffset range hrange)
  sectionOffset_of_ne t ht := (h'.sectionOffset t).trans (h.sectionOffset_of_ne t ht)

theorem Layout.opens_setSectionOffset {source : Source} {s : Section} {range : SectionRange}
    (hrange : source.range? s = some range) (l : Layout) :
    l.Opens source s (l.setSectionOffset s (some range.offset)) where
  rest := rfl
  sectionOffset range' hrange' := by
    rw [Option.some.inj (hrange.symm.trans hrange'), Layout.sectionOffset_setSectionOffset,
      if_pos rfl]
  sectionOffset_of_ne t ht := by
    rw [Layout.sectionOffset_setSectionOffset, if_neg (Ne.symm ht)]

/-- What becomes of an assembly while a table is read: beside its entities nothing is changed but
the offset of the table, and it stays on a chart that admits the table. -/
structure Assembly.Passed (source : Source) (bound : Nat) (s : Section) (a a' : Assembly) : Prop where
  beside : a.graph.Beside a'.graph
  opens : a.layout.Opens source s a'.layout
  on : ∀ chart : Chart, chart.AdmitsTable source bound s → a.On source.data chart →
    a'.On source.data chart

theorem Assembly.Passed.refl {source : Source} {s : Section} (hrange : source.range? s = none)
    (bound : Nat) (a : Assembly) : a.Passed source bound s a where
  beside := .refl _
  opens := ⟨rfl, fun _ h => (by cases hrange.symm.trans h), fun _ _ => rfl⟩
  on _ _ h := h

/-- The tables, the one that is read last in front. -/
def Section.tables : List Section :=
  [.callSiteId, .methodHandle, .classDef, .methodId, .fieldId, .protoId, .typeId, .stringId]

theorem Section.mem_tables {s : Section} : s ∈ tables ↔ s.rowSize? ≠ none := by
  cases s <;> decide

/-- What becomes of an assembly while tables are read: beside its entities nothing is changed but
the offsets of these tables, which start where the image has them. -/
structure Assembly.Opened (source : Source) (tables : List Section) (a a' : Assembly) : Prop where
  beside : a.graph.Beside a'.graph
  rest : a'.layout = { a.layout with sections := a'.layout.sections }
  sectionOffset : ∀ s ∈ tables, ∀ range, source.range? s = some range →
    a'.layout.sectionOffset s = some range.offset

namespace Assembly.Opened

variable {source : Source} {tables : List Section} {a a' a'' : Assembly}

theorem refl (source : Source) (a : Assembly) : a.Opened source [] a where
  beside := .refl _
  rest := rfl
  sectionOffset _ hs := nomatch hs

theorem pass (h : a.Opened source tables a') {bound : Nat} {s : Section}
    (hpassed : a'.Passed source bound s a'') (hs : s ∉ tables) : a.Opened source (s :: tables) a'' where
  beside := h.beside.trans hpassed.beside
  rest := by
    rw [hpassed.opens.rest, h.rest]
  sectionOffset t ht range hrange := by
    rcases List.mem_cons.mp ht with rfl | hmem
    · exact hpassed.opens.sectionOffset range hrange
    · have hne : t ≠ s := fun heq => hs (heq ▸ hmem)
      rw [hpassed.opens.sectionOffset_of_ne t hne, h.sectionOffset t hmem range hrange]

end Assembly.Opened

namespace Build

open Decoder

variable {source : Source} {mark : Mark} {rows : Section → Nat} {a : Assembly} {s : Section}
  {E : Error → Prop} {bound : Nat}

/-! ## Rows -/

section Rows

variable {α : Type} [Row α] {range : SectionRange} {content : UInt32 → α → Build s.Content}
  {added : Ref s → s.Content → Build Unit} {rowSurvey : α → Survey s.Content}

theorem establishes_decodeAt (hdecode : Steady fun _ => (Row.decode : Decoder α))
    {start index : UInt32} (hE : ∀ e : Error, (∀ g, e.Honest g) →
      (∀ row q, ¬ (Row.decode : Decoder α).Reads source.data
        (start.toNat + index.toNat * Row.size α) row q) → E e) {Q : α → Assembly → Prop}
    (hQ : ∀ row q, (Row.decode : Decoder α).Reads source.data
      (start.toNat + index.toNat * Row.size α) row q → Q row a) :
    Establishes source E (ofExcept (Row.decodeAt source.data start index)) Q a := by
  rw [establishes_ofExcept]
  unfold Row.decodeAt
  cases hrow : (Row.decode : Decoder α).runAt source.data
      (start.toNat + index.toNat * Row.size α) with
  | ok out =>
    refine ⟨fun row h => ?_, fun e h => (by cases h)⟩
    cases h
    exact hQ _ _ hrow
  | error e =>
    refine ⟨fun row h => (by cases h), fun e' h => ?_⟩
    cases h
    exact hE _ (fun g => hdecode.error (g := g) hrow) fun row q hread => by
      cases hread.symm.trans hrow

/-- Adding the entry that comes next cannot fail. -/
theorem establishes_enterRow {start index : UInt32} {x : s.Content} {Q : Ref s → Assembly → Prop}
    (hindex : index.toNat = a.graph.count s)
    (hQ : ∀ r a', a.Grown a' s x r → a'.known = a.known → Q r a') :
    Establishes source E (enterRow s start index x) Q a := by
  obtain ⟨r, a', henter, hgrown, hknown⟩ :=
    Assembly.exists_enterRow source.options.keepOffsets start x hindex
  simp only [Establishes, enterRow, henter]
  exact hQ r a' hgrown hknown

/-- A row adds the entry that the image shows in it, and does so wherever a chart admits it. -/
theorem establishes_row (hs : s.rowSize? = some (Row.size α))
    (hrange : source.range? s = some range) (hdecode : Steady fun _ => (Row.decode : Decoder α))
    (hsurvey : s.survey = Survey.decode Row.decode >>= rowSurvey)
    (hcontent : ∀ index row, (content index row).Follows source bound (rowSurvey row))
    (hbound : bound ≤ mark.bound)
    (hadded : ∀ r x a, a.Valid source → a.graph.Registered → a.graph.get? r = some x →
      Establishes source E (added r x) (fun _ => a.Noted source) a) {index : UInt32}
    (hE : ∀ e : Error, e.Honest a.graph → (∀ chart : Chart, ¬ chart.Admits source.data bound
      s.survey (range.offset.toNat + index.toNat * Row.size α) a) → E e)
    (hindex : index.toNat < range.size.toNat) (ha : a.Built source mark rows)
    (hcount : rows s = index.toNat) :
    Establishes source E (row s α range.offset content added index)
      (fun _ a' => a'.Built source mark (Function.update rows s (index.toNat + 1)) ∧
        a.Beside a' ∧ ∀ chart : Chart, chart.Admits source.data bound s.survey
          (range.offset.toNat + index.toNat * Row.size α) a → a'.On source.data chart) a := by
  have htable : s.rowSize? ≠ none := by simp [hs]
  have hmembers : s ≠ .classData := by
    rintro rfl
    cases hs
  unfold row
  rw [establishes_bind, establishes_read, establishes_bind]
  have hrow_of_admits {chart : Chart} (hc : chart.Admits source.data bound s.survey
      (range.offset.toNat + index.toNat * Row.size α) a) : ∃ x q, (Row.decode : Decoder α).Reads
        source.data (range.offset.toNat + index.toNat * Row.size α) x q := by
    rw [hsurvey] at hc
    exact Chart.Admits.exists_reads (d := fun _ => Row.decode) hc.first
  refine establishes_decodeAt hdecode (fun e he hnone => hE e (he _) fun chart hc => ?_)
    fun x q hrow => ?_
  · obtain ⟨x, q, hx⟩ := hrow_of_admits hc
    exact hnone x q hx
  have hinside {chart : Chart} (hc : chart.Admits source.data bound s.survey
      (range.offset.toNat + index.toNat * Row.size α) a) :
      chart.Admits source.data bound (rowSurvey x) q a := by
    rw [hsurvey] at hc
    exact hc.second hc.on (.refl _) fun v _ => Survey.reads_decode_iff.mpr ⟨hrow, rfl⟩
  rw [establishes_bind]
  refine ((establishes_run_lift.mp (hcontent index x q a ha.valid)).mono_error
    fun e he => hE e he.1 fun chart hc => he.2 chart (hinside hc)).mono fun y a₁ hy => ?_
  obtain ⟨met, hstep, hreads, hon⟩ := hy
  replace hstep := hstep.mono hbound
  have hcount₁ : index.toNat = a₁.graph.count s := by
    unfold Graph.count
    rw [hstep.entities s (.inr htable)]
    exact hcount.symm.trans (ha.count s htable).symm
  have hshown (v : View) (hv : (a₁.view source.data).Within v) :
      s.survey.Reads v source.data (range.offset.toNat + index.toNat * Row.size α) y met q := by
    rw [hsurvey]
    exact (Survey.reads_decode_iff.mpr ⟨hrow, rfl⟩).bind (hreads v hv)
  rw [establishes_bind]
  refine establishes_enterRow hcount₁ fun r a₂ hgrown hknown => ?_
  obtain ⟨hvalid, hwithin⟩ := hstep.valid.enterRow hs hrange hgrown hknown (hcount₁ ▸ hindex) (by
    rw [Section.bare_of_ne hmembers, ← hcount₁]
    exact ⟨met, q, hshown, hstep.answered⟩)
  have hregistered : a₂.graph.Registered := (hstep.registered ha.registered).of_same
    (Graph.get?_congr (hgrown.entities_of_ne _ (Ne.symm hmembers)))
    (fun d z hz => hgrown.get?_of_get? (hstep.valid.coherent s) hz) hgrown.methodItems
  have hnew : a₂.graph.get? r = some y := by
    rw [hgrown.get?_self (hstep.valid.coherent s), if_pos rfl]
  refine (hadded r y a₂ hvalid hregistered hnew).mono fun _ a₃ hnoted => ?_
  have hsince : a₃.Since source mark := by
    refine ⟨ha.since.within.trans (hstep.within.trans (hwithin.trans hnoted.within)),
      fun t ht hbound => ?_⟩
    have hts : t ≠ s := by
      rintro rfl
      exact htable ht
    rw [hnoted.count, ← ha.since.count t ht hbound]
    unfold Graph.count
    rw [hgrown.entities_of_ne t hts, hstep.entities t (.inl hbound)]
  refine ⟨⟨hnoted.valid, hnoted.registered, hsince, fun t o ho v hv => ?_, fun t ht => ?_⟩,
    hstep.beside.trans (hgrown.beside.trans hnoted.beside), fun chart hc =>
      (hon chart (hinside hc)).of_known (hnoted.known.trans hknown) fun t =>
        (hgrown.narrower t).trans (hnoted.count t).ge⟩
  · have hwithin' := hwithin.trans (hnoted.within.trans hv)
    simp only [Assembly.view, hnoted.known, hknown] at ho
    rcases hstep.reached t o ho with ho | hlead
    · exact ha.met t o ho v (hstep.within.trans hwithin')
    · obtain ⟨root, hroot, hpath⟩ := hlead v hwithin'
      exact ⟨root, ⟨s, Row.size α, range, index.toNat, y, met, q, hs, hrange, hindex,
        hshown v hwithin', hroot⟩, hpath⟩
  · rw [hnoted.count]
    by_cases hts : t = s
    · subst hts
      unfold Graph.count at hcount₁ ⊢
      rw [hgrown.entities_self, Collection.size_add, ← hcount₁, Function.update_self]
    · unfold Graph.count
      rw [hgrown.entities_of_ne t hts, hstep.entities t (.inr ht), Function.update_of_ne hts]
      exact ha.count t ht

/-- The rule for reading rows: every row brings its table one entry further. -/
theorem establishes_rowsFrom {row : UInt32 → Build Unit} {size : UInt32} {I : Nat → Assembly → Prop}
    (hrow : ∀ (index : UInt32) a, index.toNat < size.toNat → I index.toNat a →
      Establishes source E (row index) (fun _ => I (index.toNat + 1)) a)
    (left : Nat) {index : Nat} (hleft : index + left = size.toNat) (ha : I index a) :
    Establishes source E (rowsFrom row left index) (fun _ => I size.toNat) a := by
  induction left generalizing a index with
  | zero =>
    unfold rowsFrom
    rw [establishes_pure, ← hleft]
    exact ha
  | succ left ih =>
    have hword : index.toUInt32.toNat = index := by
      have hlt := size.toNat_lt
      rw [Nat.toUInt32_eq, UInt32.toNat_ofNat']
      exact Nat.mod_eq_of_lt (by omega)
    unfold rowsFrom
    refine (hrow index.toUInt32 a (by omega) (hword.symm ▸ ha)).bind fun _ a' ha' => ?_
    rw [hword] at ha'
    exact ih (by omega) ha'

theorem establishes_rowsFrom_of_row {row : UInt32 → Build Unit}
    (hrow : ∀ index a, Establishes source E (row index) (fun _ _ => True) a) {left index : Nat} :
    Establishes source E (rowsFrom row left index) (fun _ _ => True) a := by
  induction left generalizing a index with
  | zero => exact trivial
  | succ left ih => exact (hrow index.toUInt32 a).bind fun _ _ _ => ih

/-- A table is read as a whole. Its errors are honest about graphs that have all entries of the
other tables that were there before, and there are none where a chart admits the table. -/
theorem establishes_table (hs : s.rowSize? = some (Row.size α))
    (hrange : source.range? s = some range) (hdecode : Steady fun _ => (Row.decode : Decoder α))
    (hsurvey : s.survey = Survey.decode Row.decode >>= rowSurvey)
    (hcontent : ∀ index row, (content index row).Follows source bound (rowSurvey row))
    (hbound : bound ≤ mark.bound)
    (hadded : ∀ r x a, a.Valid source → a.graph.Registered → a.graph.get? r = some x →
      Establishes source E (added r x) (fun _ => a.Noted source) a)
    (hE : ∀ (g : Graph) (e : Error), (∀ t : Section, t.rowSize? ≠ none → t ≠ s →
      g.count t = rows t) → e.Honest g → (∀ chart : Chart, chart.AdmitsTable source bound s →
        ¬ a.On source.data chart) → E e)
    (ha : a.Built source mark rows) (hcount : rows s = 0) :
    Establishes source E (table s α range content added) (fun _ a' =>
      a'.Built source mark (Function.update rows s (source.rowCount s)) ∧
        a.Passed source bound s a') a := by
  have hsize : source.rowCount s = range.size.toNat := by
    unfold Source.rowCount
    rw [hrange]
  have hnone : Function.update rows s 0 = rows := hcount ▸ Function.update_eq_self s rows
  unfold table
  rw [establishes_bind, establishes_changeLayout, hsize]
  refine establishes_rowsFrom
    (I := fun i a' => a'.Built source mark (Function.update rows s i) ∧ a.Passed source bound s a')
    (fun index a' hindex ha' => ?_) _ (Nat.zero_add _)
    ⟨hnone.symm ▸ ha.of_items rfl ha.valid.coherent (fun _ => rfl) rfl
      fun _ _ => Layout.place_setSectionOffset .., .refl _, Layout.opens_setSectionOffset hrange _,
      fun _ _ h => h.of_known rfl fun _ => Nat.le_refl _⟩
  obtain ⟨ha', hpassed⟩ := ha'
  have hrow := establishes_row hs hrange hdecode hsurvey hcontent hbound hadded
    (fun e he hnone => hE a'.graph e
      (fun t ht hts => (ha'.count t ht).trans (Function.update_of_ne hts ..)) he
      fun chart hc hon => hnone chart (hc.admits (hpassed.on chart hc hon) hs hrange hindex))
    hindex ha' (Function.update_self ..)
  rw [Function.update_idem] at hrow
  refine hrow.mono fun _ a'' ha'' => ?_
  obtain ⟨hbuilt, hbeside, hon⟩ := ha''
  exact ⟨hbuilt, hpassed.beside.trans hbeside.graph, hpassed.opens.trans hbeside.layout,
    fun chart hc h => hon chart (hc.admits (hpassed.on chart hc h) hs hrange hindex)⟩

end Rows

/-! ## The tables -/

/-- Nothing is done when an entry has been added. -/
theorem establishes_added (r : Ref s) (x : s.Content) (a : Assembly) (ha : a.Valid source)
    (hl : a.graph.Registered) (_ : a.graph.get? r = some x) :
    Establishes source E (pure () : Build Unit) (fun _ => a.Noted source) a :=
  establishes_pure.mpr ⟨ha, .refl _, hl, .refl _, rfl, fun _ => rfl⟩

/-- Members are claimed by a class that has them. -/
theorem establishes_claimMembers (r : Ref .classDef) (x : ClassDef) (a : Assembly)
    (ha : a.Valid source) (hl : a.graph.Registered) (hx : a.graph.get? r = some x) :
    Establishes source E (claimMembers r x) (fun _ => a.Noted source) a := by
  unfold claimMembers
  cases hc : x.classData with
  | none => exact establishes_added r x a ha hl hx
  | some c =>
    rw [establishes_changeGraph]
    have hcount := Graph.count_modify a.graph c fun members => members.belongTo r
    let claimed : Assembly :=
      { a with graph := a.graph.modify c fun members => members.belongTo r }
    have hknown : claimed.known = a.known := rfl
    obtain ⟨hvalid, hwithin⟩ := ha.of_same hknown
      (Graph.coherent_modify ha.coherent c _) hcount (fun t r' y hy => by
        by_cases ht : t = .classData
        · subst ht
          rw [Graph.get?_modify_self] at hy
          split at hy
          · obtain ⟨members, hmembers, rfl⟩ := Option.map_eq_some_iff.mp hy
            exact ⟨members, hmembers, rfl⟩
          · exact ⟨y, hy, rfl⟩
        · rw [Graph.get?_modify_of_ne _ _ _ ht] at hy
          exact ⟨y, hy, rfl⟩) fun _ _ => rfl
    exact ⟨hvalid, hwithin, hl.belongTo hx hc, ⟨.modify _ c _, .refl _⟩, rfl, hcount⟩

/-- A table that the map list names is read, and has no entries if it is not named. -/
theorem establishes_mapSection {kind : MapItemType} {take : SectionRange → Build Unit}
    (hrange : source.range? s = (source.map.find? kind).map fun e => ⟨e.size, e.offset⟩)
    (htake : ∀ range, source.range? s = some range → Establishes source E (take range)
      (fun _ a' => a'.Built source mark (Function.update rows s (source.rowCount s)) ∧
        a.Passed source bound s a') a)
    (ha : a.Built source mark rows) (hcount : rows s = 0) :
    Establishes source E (mapSection kind take)
      (fun _ a' => a'.Built source mark (Function.update rows s (source.rowCount s)) ∧
        a.Passed source bound s a') a := by
  unfold mapSection
  rw [establishes_bind, establishes_read]
  cases hentry : source.map.find? kind with
  | some entry =>
    rw [hentry] at hrange
    exact htake _ hrange
  | none =>
    rw [hentry] at hrange
    have hnone : source.rowCount s = rows s := by
      unfold Source.rowCount
      rw [hrange, hcount]
      rfl
    rw [establishes_pure, hnone, Function.update_eq_self]
    exact ⟨ha, .refl (hrange.trans rfl) bound a⟩

/-- While another table is read, the table of method handles stays as it is. -/
theorem refuses_of_honest (hs : .methodHandle ≠ s)
    (hhandles : rows .methodHandle = 0 ∨ rows .methodHandle = source.rowCount .methodHandle)
    (g : Graph) (e : Error)
    (hg : ∀ t : Section, t.rowSize? ≠ none → t ≠ s → g.count t = rows t) (he : e.Honest g)
    (hnone : ∀ chart : Chart, chart.AdmitsTable source bound s → ¬ a.On source.data chart) :
    source.RefusesTable bound s a e :=
  ⟨.of_honest he (by rwa [hg .methodHandle (by decide) hs]), hnone⟩

section Tables

variable (hsize : source.data.size < 2 ^ 32)
  (ha : a.Built source mark rows)
  (hhandles : rows .methodHandle = 0 ∨ rows .methodHandle = source.rowCount .methodHandle)
include hsize ha hhandles

theorem establishes_stringIds (hbound : 1 ≤ mark.bound) (hcount : rows .stringId = 0) :
    Establishes source (source.RefusesTable 1 .stringId a) (stringIds source.header.stringIds)
      (fun _ a' => a'.Built source mark
        (Function.update rows .stringId (source.rowCount .stringId)) ∧
          a.Passed source 1 .stringId a') a :=
  establishes_table rfl rfl StringIdRow.steady_decode rfl
    (fun _ _ => Build.Follows.bind (stringData_follows hsize) fun _ => Build.follows_pure)
    hbound establishes_added (refuses_of_honest (by decide) hhandles) ha hcount

omit hsize in
theorem establishes_typeIds (hcount : rows .typeId = 0) :
    Establishes source (source.RefusesTable 0 .typeId a) (typeIds source.header.typeIds)
      (fun _ a' => a'.Built source mark (Function.update rows .typeId (source.rowCount .typeId)) ∧
        a.Passed source 0 .typeId a') a :=
  establishes_table rfl rfl TypeIdRow.steady_decode rfl
    (fun _ _ => Build.Follows.bind resolve_follows fun _ => Build.follows_pure)
    (Nat.zero_le _) establishes_added (refuses_of_honest (by decide) hhandles) ha hcount

theorem establishes_protoIds (hbound : 4 ≤ mark.bound) (hcount : rows .protoId = 0) :
    Establishes source (source.RefusesTable 4 .protoId a) (protoIds source.header.protoIds)
      (fun _ a' => a'.Built source mark
        (Function.update rows .protoId (source.rowCount .protoId)) ∧
          a.Passed source 4 .protoId a') a :=
  establishes_table rfl rfl ProtoIdRow.steady_decode rfl
    (fun _ _ => Build.Follows.bind resolve_follows fun _ => Build.Follows.bind resolve_follows
      fun _ => Build.Follows.bind (typeList?_follows hsize) fun _ => Build.follows_pure)
    hbound establishes_added (refuses_of_honest (by decide) hhandles) ha hcount

omit hsize in
theorem establishes_fieldIds (hcount : rows .fieldId = 0) :
    Establishes source (source.RefusesTable 0 .fieldId a) (fieldIds source.header.fieldIds)
      (fun _ a' => a'.Built source mark
        (Function.update rows .fieldId (source.rowCount .fieldId)) ∧
          a.Passed source 0 .fieldId a') a :=
  establishes_table rfl rfl FieldIdRow.steady_decode rfl
    (fun _ _ => Build.Follows.bind resolve_follows fun _ => Build.Follows.bind resolve_follows
      fun _ => Build.Follows.bind resolve_follows fun _ => Build.follows_pure)
    (Nat.zero_le _) establishes_added (refuses_of_honest (by decide) hhandles) ha hcount

omit hsize in
theorem establishes_methodIds (hcount : rows .methodId = 0) :
    Establishes source (source.RefusesTable 0 .methodId a) (methodIds source.header.methodIds)
      (fun _ a' => a'.Built source mark
        (Function.update rows .methodId (source.rowCount .methodId)) ∧
          a.Passed source 0 .methodId a') a :=
  establishes_table rfl rfl MethodIdRow.steady_decode rfl
    (fun _ _ => Build.Follows.bind resolve_follows fun _ => Build.Follows.bind resolve_follows
      fun _ => Build.Follows.bind resolve_follows fun _ => Build.follows_pure)
    (Nat.zero_le _) establishes_added (refuses_of_honest (by decide) hhandles) ha hcount

theorem establishes_classDefs (hbound : 18 ≤ mark.bound) (hcount : rows .classDef = 0) :
    Establishes source (source.RefusesTable 18 .classDef a) (classDefs source.header.classDefs)
      (fun _ a' => a'.Built source mark
        (Function.update rows .classDef (source.rowCount .classDef)) ∧
          a.Passed source 18 .classDef a') a :=
  establishes_table rfl rfl ClassDefRow.steady_decode rfl
    (fun _ _ => Build.Follows.bind resolve_follows fun _ =>
      Build.Follows.bind resolveOrNone_follows fun _ =>
      Build.Follows.bind ((typeList?_follows hsize).mono (by decide)) fun _ =>
      Build.Follows.bind resolveOrNone_follows fun _ =>
      Build.Follows.bind ((annotationsDirectory?_follows hsize).mono (by decide)) fun _ =>
      Build.Follows.bind ((encodedArray?_follows hsize).mono (by decide)) fun _ =>
      Build.Follows.bind (classData?_follows hsize) fun _ => Build.follows_pure)
    hbound establishes_claimMembers (refuses_of_honest (by decide) hhandles) ha hcount

theorem establishes_callSiteIds (hbound : 11 ≤ mark.bound) (hcount : rows .callSiteId = 0) :
    Establishes source (source.RefusesTable 11 .callSiteId a)
      (mapSection .callSiteIdItem callSiteIds)
      (fun _ a' => a'.Built source mark
        (Function.update rows .callSiteId (source.rowCount .callSiteId)) ∧
          a.Passed source 11 .callSiteId a') a := by
  refine establishes_mapSection rfl (fun range hrange => establishes_table rfl hrange
    CallSiteIdRow.steady_decode rfl (fun index row => Build.Follows.bind
      (encodedArray?_follows hsize) fun array => ?_) hbound establishes_added
      (refuses_of_honest (by decide) hhandles) ha hcount) ha hcount
  cases array with
  | none => exact Build.follows_refuse
  | some array => exact Build.follows_pure

end Tables

/-! ### Method handles -/

theorem refuses_of_resolve (hs : s ≠ .methodHandle) (index : UInt32) :
    Establishes source source.Refuses (resolve s index) (fun _ _ => True) a := by
  unfold resolve
  rw [establishes_bind, establishes_get, establishes_ofExcept]
  refine ⟨fun _ _ => trivial, fun e he => ⟨(Graph.honest_of_resolve he).not_duplicate, ?_⟩⟩
  rintro i n rfl
  unfold Graph.resolve Collection.resolve at he
  split at he <;> cases he
  exact absurd rfl hs

/-- The table of method handles does not refer to itself, so that none is wanted while it is read. -/
theorem refuses_of_methodHandles (range : SectionRange) :
    Establishes source source.Refuses (methodHandles range) (fun _ _ => True) a := by
  have htarget (kind : MethodHandleKind) (index : UInt16) (a : Assembly) :
      Establishes source source.Refuses (handleTarget kind index) (fun _ _ => True) a := by
    unfold handleTarget
    rw [establishes_ite]
    exact ⟨fun _ => (refuses_of_resolve (by decide) _).bind fun _ _ _ => trivial,
      fun _ => (refuses_of_resolve (by decide) _).bind fun _ _ _ => trivial⟩
  unfold methodHandles table
  rw [establishes_bind, establishes_changeLayout]
  refine establishes_rowsFrom_of_row fun index a => ?_
  unfold row
  rw [establishes_bind, establishes_read, establishes_bind]
  refine establishes_decodeAt MethodHandleRow.steady_decode
    (fun e he _ => .of_honest (he .empty) (.inl rfl)) fun x _ _ => ?_
  refine Establishes.bind (R := fun _ _ => True) ?_ fun content a _ => ?_
  · dsimp only
    cases MethodHandleKind.ofCode? x.kind with
    | none => exact Source.Refuses.of_plain (Error.plain_malformed _)
    | some kind => exact (htarget kind x.target _).bind fun _ _ _ => trivial
  · refine Establishes.bind (R := fun _ _ => True) ?_ fun _ _ _ => trivial
    by_cases hindex : index.toNat = a.graph.count .methodHandle
    · exact establishes_enterRow hindex fun _ _ _ _ => trivial
    · simp only [Establishes, enterRow, Assembly.enterRow_of_ne _ _ _ hindex]
      exact .of_plain (Error.plain_malformed _)

theorem establishes_methodHandles (ha : a.Built source mark rows)
    (hcount : rows .methodHandle = 0) :
    Establishes source (source.RefusesTable 0 .methodHandle a)
      (mapSection .methodHandleItem methodHandles)
      (fun _ a' => a'.Built source mark
        (Function.update rows .methodHandle (source.rowCount .methodHandle)) ∧
          a.Passed source 0 .methodHandle a') a := by
  refine establishes_mapSection rfl (fun range hrange => ?_) ha hcount
  refine ((establishes_table (E := fun _ => ∀ chart : Chart, chart.AdmitsTable source 0 .methodHandle →
      ¬ a.On source.data chart) rfl hrange MethodHandleRow.steady_decode rfl
    (fun index row => ?_) (Nat.zero_le _) establishes_added (fun _ _ _ _ h => h) ha hcount).and
      (refuses_of_methodHandles range)).mono_error (fun e he => he.symm) |>.mono fun _ _ h => h.1
  unfold MethodHandleRow.survey
  cases MethodHandleKind.ofCode? row.kind with
  | none => exact Build.follows_refuse
  | some kind =>
    exact Build.Follows.bind (.ite
      (fun _ => Build.Follows.bind resolve_follows fun _ => Build.follows_pure)
      fun _ => Build.Follows.bind resolve_follows fun _ => Build.follows_pure)
      fun _ => Build.follows_pure

/-! ## Completion -/

theorem establishes_hiddenapi (ha : a.Built source mark rows) :
    Establishes source source.Refuses (mapSection .hiddenapiClassData hiddenapi)
      (fun _ => Assembly.Built source mark rows) a := by
  unfold mapSection
  rw [establishes_bind, establishes_read]
  cases source.map.find? .hiddenapiClassData with
  | none => exact ha
  | some entry =>
    unfold hiddenapi
    rw [establishes_bind, establishes_read, establishes_bind, establishes_get, establishes_bind,
      establishes_ofExcept]
    exact ⟨fun out _ => ha.of_items rfl ha.valid.coherent (fun _ => rfl) rfl fun _ _ => rfl,
      fun e he => .of_honest ((HiddenApi.steady_decode _).error (g := .empty) he) (.inl rfl)⟩

theorem establishes_checkEntry (entry : MapEntry) (ha : a.Built source mark rows) :
    Establishes source source.Refuses (checkEntry entry)
      (fun _ => Assembly.Built source mark rows) a := by
  unfold checkEntry
  cases entry.kind? with
  | none => exact ha
  | some kind =>
    dsimp only
    rw [establishes_bind, establishes_read, establishes_bind, establishes_get]
    cases expectedRange? source.header a.graph entry kind with
    | some expected =>
      rw [establishes_ite]
      exact ⟨fun _ => .of_plain (Error.plain_malformed _), fun _ => ha⟩
    | none =>
      cases dataSectionOf? kind with
      | some s =>
        exact ha.of_items rfl ha.valid.coherent (fun _ => rfl) rfl
          fun _ _ => Layout.place_setSectionOffset ..
      | none => exact ha

theorem establishes_sortSection (s : Section) (ha : a.Built source mark rows) :
    Establishes source E (sortSection s) (fun _ => Assembly.Built source mark rows) a := by
  unfold sortSection
  rw [establishes_modify]
  refine ha.of_items rfl (fun t => ?_) (fun t => ?_) (Graph.methodItems_setEntities _ _ _)
    fun _ _ => rfl
  · by_cases ht : t = s
    · subst ht
      rw [Graph.entities_setEntities_self]
      exact (ha.valid.coherent t).reorder _
    · rw [Graph.entities_setEntities_of_ne _ _ (Ne.symm ht)]
      exact ha.valid.coherent t
  · by_cases ht : t = s
    · subst ht
      rw [Graph.entities_setEntities_self]
      rfl
    · rw [Graph.entities_setEntities_of_ne _ _ (Ne.symm ht)]

theorem establishes_linkData (range : SectionRange) (ha : a.Built source mark rows) :
    Establishes source source.Refuses (linkData range)
      (fun _ => Assembly.Built source mark rows) a := by
  unfold linkData
  rw [establishes_ite]
  refine ⟨fun _ => ha, fun _ => ?_⟩
  rw [establishes_bind, establishes_read]
  cases source.data.slice? range.offset.toNat range.size.toNat with
  | some bytes => exact ha.of_items rfl ha.valid.coherent (fun _ => rfl) rfl fun _ _ => rfl
  | none => exact Source.Refuses.of_plain Error.plain_outOfBounds

theorem built_start (source : Source) (header : FileHeader) (bound : Nat) :
    (Assembly.start header).Built source ⟨.start header, bound⟩ fun _ => 0 := by
  have hitems (s : Section) : (Assembly.start header).graph.entities s = ∅ := by
    cases s <;> rfl
  have hget {s : Section} (r : Ref s) : (Assembly.start header).graph.get? r = none := by
    unfold Graph.get?
    rw [hitems]
    rfl
  have hcount (s : Section) : (Assembly.start header).graph.count s = 0 := by
    unfold Graph.count
    rw [hitems]
    rfl
  have hkey (s : Section) (key : ItemKey) :
      (((Assembly.start header).known.get s).get? key : Option (Ref s)) = none := by
    simp only [Assembly.start, PerSection.get_replicate]
    rfl
  have hfind (s : Section) (o : UInt32) :
      ((Assembly.start header).view source.data).find? s o = none := hkey s _
  refine ⟨⟨fun s => ?_, fun s _ r => ?_, fun {s o o' r} _ h => ?_, fun {s} _ => hfind s 0,
    fun {s key r} h => ?_, fun s r x h => ?_, fun s r x _ h => ?_⟩,
    ⟨⟨fun r c h => ?_, fun r c d h => ?_, fun i l h => ?_⟩, fun l m h => ?_⟩,
    ⟨.refl _, fun _ _ _ => rfl⟩, fun s o h => ?_, fun s _ => hcount s⟩
  · rw [hitems]
    exact Collection.coherent_empty
  · simp [Graph.Has, hcount, hfind]
  · rw [hfind] at h
    cases h
  · rw [hkey] at h
    cases h
  · rw [hget] at h
    cases h
  · rw [hget] at h
    cases h
  · rw [hget] at h
    cases h
  · rw [hget] at h
    cases h
  · have hnone : (Assembly.start header).graph.methodItems[i]? = none :=
      Std.TreeMap.getElem?_emptyc
    rw [hnone] at h
    cases h
  · obtain ⟨c, hc, -⟩ := Graph.methodAt?_eq_some_iff.mp h
    rw [hget] at hc
    cases hc
  · rw [hfind] at h
    cases h

/-- The rule for what comes after the tables: it starts from an assembly that holds all their
entries, in which every table starts where the image has it. -/
theorem establishes_all_of_rest {Q : Unit → Assembly → Prop} (hsize : source.data.size < 2 ^ 32)
    (ha : a.Built source ⟨a, 18⟩ fun _ => 0) (hE : ∀ e, source.Refuses e → E e)
    (hrest : ∀ a' classes : Assembly, a'.Built source ⟨classes, 11⟩ source.rowCount →
      (∃ mark rows, classes.Built source mark rows ∧ rows .methodHandle = 0 ∧
        rows .classDef = source.rowCount .classDef) →
      a.Opened source Section.tables a' → Establishes source E (do
        if source.options.loadHiddenapi then
          mapSection .hiddenapiClassData hiddenapi
        source.map.entries.forM checkEntry
        Section.dataSections.forM sortSection
        linkData source.header.link) Q a') :
    Establishes source E all Q a := by
  unfold all
  rw [establishes_bind, establishes_read]
  have hE' {bound : Nat} {s : Section} {a : Assembly} (e : Error)
      (he : source.RefusesTable bound s a e) : E e := hE e he.1
  have hopened := Assembly.Opened.refl source a
  refine ((establishes_stringIds hsize ha (.inl rfl) (Nat.le_add_left ..) rfl).mono_error
    hE').bind fun _ a ⟨ha, hpassed⟩ => ?_
  replace hopened := hopened.pass hpassed (by decide)
  refine ((establishes_typeIds ha (.inl rfl) rfl).mono_error hE').bind fun _ a ⟨ha, hpassed⟩ => ?_
  replace hopened := hopened.pass hpassed (by decide)
  refine ((establishes_protoIds hsize ha (.inl rfl) (Nat.le_add_left ..) rfl).mono_error
    hE').bind fun _ a ⟨ha, hpassed⟩ => ?_
  replace hopened := hopened.pass hpassed (by decide)
  refine ((establishes_fieldIds ha (.inl rfl) rfl).mono_error hE').bind fun _ a ⟨ha, hpassed⟩ => ?_
  replace hopened := hopened.pass hpassed (by decide)
  refine ((establishes_methodIds ha (.inl rfl) rfl).mono_error hE').bind
    fun _ a ⟨ha, hpassed⟩ => ?_
  replace hopened := hopened.pass hpassed (by decide)
  refine ((establishes_classDefs hsize ha (.inl rfl) (Nat.le_refl 18) rfl).mono_error hE').bind
    fun _ classes ⟨hclasses, hpassed⟩ => ?_
  replace hopened := hopened.pass hpassed (by decide)
  refine ((establishes_methodHandles (hclasses.now 11) rfl).mono_error hE').bind
    fun _ a ⟨ha, hpassed⟩ => ?_
  replace hopened := hopened.pass hpassed (by decide)
  refine ((establishes_callSiteIds hsize ha (.inr rfl) (Nat.le_refl 11) rfl).mono_error
    hE').bind fun _ a ⟨ha, hpassed⟩ => ?_
  replace hopened := hopened.pass hpassed (by decide)
  exact hrest a classes
    { ha with count := fun s hs => (ha.count s hs).trans (by cases s <;> rfl) }
    ⟨_, _, hclasses, rfl, rfl⟩ hopened

/-- Assembling a whole graph either fails for one of the reasons for which an image may be refused,
or the assembly is complete. -/
theorem establishes_all (hsize : source.data.size < 2 ^ 32)
    (ha : a.Built source ⟨a, 18⟩ fun _ => 0) :
    Establishes source source.Refuses all
      (fun _ a' => ∃ classes, Assembly.Complete source a' classes) a := by
  refine establishes_all_of_rest hsize ha (fun _ he => he) fun a classes ha hclasses _ => ?_
  have hrest (a : Assembly) (ha : a.Built source ⟨classes, 11⟩ source.rowCount) :
      Establishes source source.Refuses (do
        source.map.entries.forM checkEntry
        Section.dataSections.forM sortSection
        linkData source.header.link)
        (fun _ a' => ∃ classes, Assembly.Complete source a' classes) a := by
    refine (establishes_forM_array (fun entry _ a ha => establishes_checkEntry entry ha) ha).bind
      fun _ a ha => ?_
    refine (establishes_forM (fun s _ a ha => establishes_sortSection s ha) ha).bind
      fun _ a ha => ?_
    exact (establishes_linkData _ ha).mono fun _ a ha => ⟨classes, ha, hclasses⟩
  rw [establishes_ite]
  exact ⟨fun _ => (establishes_hiddenapi ha).bind fun _ => hrest, fun _ => hrest a ha⟩

end Build

/-! ## Images -/

theorem MapList.honest_of_read {data : Bytes} {offset : UInt32} {e : Error}
    (h : read data offset = .error e) : e.Honest .empty := by
  unfold read at h
  cases hword : Decoder.word.runAt data offset.toNat with
  | error e' =>
    rw [hword] at h
    cases h
    exact Decoder.steady_word.error hword
  | ok out =>
    rw [hword] at h
    obtain ⟨count, start⟩ := out
    change (if _ then _ else _) = _ at h
    split at h
    · cases h
      exact (Error.plain_malformed _).honest _
    · cases hentries : (gather count.toNat (Row.decode : Decoder MapEntry)).runAt data start with
      | error e' =>
        rw [hentries] at h
        cases h
        exact MapEntry.steady_decode.gather.error hentries
      | ok out =>
        rw [hentries] at h
        cases h

theorem Image.size_data_lt (image : Image) : image.data.size < 2 ^ 32 := by
  have hsize : image.data.size ≤ image.fileSize := by
    unfold data
    rw [Array.size_extract]
    omega
  exact Nat.lt_of_le_of_lt hsize image.header.fileSize.toNat_lt

namespace Dex

/-- Either the map list cannot be read, or the image is refused for one of the reasons for which it
may be, or the graph of a complete assembly is read from it. -/
theorem ofImage_outcome (options : BuildOptions) (image : Image) :
    (∃ e, ofImage options image = .error e ∧ e.Honest .empty) ∨
      ∃ map : MapList, MapList.read image.data image.header.mapOffset = .ok map ∧
        ((∃ e, ofImage options image = .error e ∧
            Source.Refuses ⟨image.data, image.header, map, options⟩ e) ∨
          ∃ a classes : Assembly, ofImage options image = .ok ⟨a.graph, a.layout, {}⟩ ∧
            Assembly.Complete ⟨image.data, image.header, map, options⟩ a classes) := by
  rw [ofImage_eq]
  cases hmap : MapList.read image.data image.header.mapOffset with
  | error e => exact .inl ⟨e, rfl, MapList.honest_of_read hmap⟩
  | ok map =>
    have hall := Build.establishes_all image.size_data_lt
      (Build.built_start ⟨image.data, image.header, map, options⟩ image.header 18)
    refine .inr ⟨map, rfl, ?_⟩
    dsimp only
    cases hrun : Build.all ⟨image.data, image.header, map, options⟩
        (Assembly.start image.header) with
    | error e => exact .inl ⟨e, rfl, hall.of_error hrun⟩
    | ok out =>
      obtain ⟨classes, hcomplete⟩ := hall.of_ok hrun
      exact .inr ⟨out.2, classes, rfl, hcomplete⟩

/-- What is read from an image is a complete assembly. -/
theorem complete_of_ofImage {options : BuildOptions} {image : Image} {d : Dex}
    (h : ofImage options image = .ok d) : ∃ (map : MapList) (a classes : Assembly),
      d = ⟨a.graph, a.layout, {}⟩ ∧
        Assembly.Complete ⟨image.data, image.header, map, options⟩ a classes := by
  rcases ofImage_outcome options image with
    ⟨e, he, -⟩ | ⟨map, -, ⟨e, he, -⟩ | ⟨a, classes, ha, hcomplete⟩⟩
  · cases he.symm.trans h
  · cases he.symm.trans h
  · exact ⟨map, a, classes, Except.ok.inj (h.symm.trans ha), hcomplete⟩

end Dex

end DexGraph
