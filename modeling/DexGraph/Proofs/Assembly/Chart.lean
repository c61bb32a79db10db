import DexGraph.Proofs.Assembly.Valid

/-!
# Charts

A chart says of an image, before it is read, at which offsets items lie and how many entries the
tables have at least. It admits a survey at a position if whatever lies at its offsets can be read,
and the survey can be followed from there, as soon as all of the chart has been found. An assembly
that is on the chart has found nothing else.
-/

namespace DexGraph

/-- At which offsets items lie, and how many entries the tables have at least. -/
structure Chart where
  rows : Section → Nat
  holds : Section → UInt32 → Prop

/-- The view has all that is on the chart. -/
structure View.Covers (v : View) (chart : Chart) : Prop where
  rows : ∀ s : Section, s.rowSize? ≠ none → chart.rows s ≤ v.graph.count s
  find : ∀ {s o}, chart.holds s o → (v.find? s o).isSome

/-- What lies at the offsets of the chart can be read, in the sections with a number below the
bound. -/
def Chart.Readable (chart : Chart) (data : Bytes) (bound : Nat) : Prop :=
  ∀ (s : Section) (o : UInt32), s.index.val < bound → chart.holds s o → ∀ v : View,
    v.Covers chart → ∃ x met q, s.survey.Reads v data o.toNat x met q ∧ q < 2 ^ 32

namespace Assembly

variable {a a' : Assembly} {chart : Chart} {data : Bytes}

/-- What has been found is on the chart, and the entries of tables that the chart counts are
there. -/
structure On (a : Assembly) (data : Bytes) (chart : Chart) : Prop where
  rows : ∀ s : Section, s.rowSize? ≠ none → chart.rows s ≤ a.graph.count s
  find : ∀ {s o}, ((a.view data).find? s o).isSome → chart.holds s o

/-- When the rest of the chart is found, nothing else is. -/
theorem On.exists_covers (h : a.On data chart) : ∃ v : View, v.Covers chart ∧
    (a.view data).Within v ∧ v.graph = a.graph ∧
      ∀ s o, (v.find? s o).isSome ↔ chart.holds s o := by
  classical
  let find (s : Section) (o : UInt32) : Option (Ref s) :=
    if chart.holds s o then some (((a.view data).find? s o).getD ⟨0⟩) else none
  have hfind (s : Section) (o : UInt32) : (find s o).isSome ↔ chart.holds s o := by
    unfold find
    split <;> simp_all
  refine ⟨⟨a.graph, find⟩, ⟨h.rows, fun hs => (hfind _ _).mpr hs⟩, ⟨fun _ => Nat.le_refl _, ?_⟩,
    rfl, hfind⟩
  intro s o r hr
  have hholds : chart.holds s o := h.find (by rw [hr]; rfl)
  change find s o = some r
  simp only [find, if_pos hholds, hr, Option.getD_some]

end Assembly

/-- Nothing keeps the survey from being followed at the position: all items of the chart can be
read, and the survey reads something when they have been found. -/
structure Chart.Admits {α : Type} (chart : Chart) (data : Bytes) (bound : Nat) (d : Survey α)
    (p : Nat) (a : Assembly) : Prop where
  readable : chart.Readable data bound
  on : a.On data chart
  reads : ∀ v : View, v.Covers chart → (a.view data).Within v → ∃ x met q, d.Reads v data p x met q

namespace Chart.Admits

variable {α β : Type} {chart : Chart} {data : Bytes} {bound : Nat} {a a' : Assembly} {d : Survey α}
  {p : Nat}

/-- Where a survey is admitted, so is one that reads whenever the first one does. -/
theorem imp (h : chart.Admits data bound d p a) {bound' : Nat} (hb : bound' ≤ bound)
    {d' : Survey β} {p' : Nat} (himp : ∀ v x met q, v.Covers chart → (a.view data).Within v →
      d.Reads v data p x met q → ∃ x met q, d'.Reads v data p' x met q) :
    chart.Admits data bound' d' p' a where
  readable s o hs := h.readable s o (hs.trans_le hb)
  on := h.on
  reads v hv hw := by
    obtain ⟨x, met, q, hreads⟩ := h.reads v hv hw
    exact himp v x met q hv hw hreads

/-- The first of two surveys is admitted where both are. -/
theorem first {e : α → Survey β} (h : chart.Admits data bound (d >>= e) p a) :
    chart.Admits data bound d p a :=
  h.imp (Nat.le_refl _) fun v b met r _ _ hreads => by
    obtain ⟨x, first, q, rest, hx, -, -⟩ := Survey.reads_bind_iff.mp hreads
    exact ⟨x, first, q, hx⟩

/-- The second of two surveys is admitted where the first one stops, if both were admitted. -/
theorem second {e : α → Survey β} (h : chart.Admits data bound (d >>= e) p a) {x : α}
    {met : List Pointer} {q : Nat} (hon : a'.On data chart)
    (hw : (a.view data).Within (a'.view data))
    (hreads : ∀ v, (a'.view data).Within v → d.Reads v data p x met q) :
    chart.Admits data bound (e x) q a' where
  readable := h.readable
  on := hon
  reads v hv hw' := by
    obtain ⟨y, out, r, hy⟩ := h.reads v hv (hw.trans hw')
    obtain ⟨x', first, q', rest, hx, hrest, -⟩ := Survey.reads_bind_iff.mp hy
    obtain ⟨rfl, -, rfl⟩ := hx.unique (hreads v hw')
    exact ⟨y, rest, r, hrest⟩

/-- A decoder that is admitted reads in the graph as it is. -/
theorem exists_reads {d : Graph → Decoder α} (h : chart.Admits data bound (.decodeWith d) p a) :
    ∃ x q, (d a.graph).Reads data p x q := by
  obtain ⟨v, hv, hw, hgraph, -⟩ := h.on.exists_covers
  obtain ⟨x, met, q, hreads⟩ := h.reads v hv hw
  exact ⟨x, q, hgraph ▸ (Survey.reads_decodeWith_iff.mp hreads).1⟩

/-- An item that is admitted is on the chart. -/
theorem holds {s : Section} {o : UInt32} (h : chart.Admits data bound (.item s o) p a) :
    chart.holds s o := by
  obtain ⟨v, hv, hw, -, hfind⟩ := h.on.exists_covers
  obtain ⟨r, met, q, hreads⟩ := h.reads v hv hw
  exact (hfind s o).mp (Option.isSome_iff_exists.mpr ⟨r, (Survey.reads_item_iff.mp hreads).1⟩)

/-- The survey of an item that is admitted is admitted at its offset. -/
theorem survey {s : Section} {o : UInt32} (h : chart.Admits data bound (.item s o) p a)
    (hs : s.index < bound) : chart.Admits data s.index s.survey o.toNat a where
  readable t o ht := h.readable t o (ht.trans hs)
  on := h.on
  reads v hv _ := by
    obtain ⟨x, met, q, hreads, -⟩ := h.readable s o hs h.holds v hv
    exact ⟨x, met, q, hreads⟩

/-- What is read of an item that is admitted ends before positions become too large. -/
theorem stop_lt {s : Section} {o : UInt32} (h : chart.Admits data bound (.item s o) p a)
    (hs : s.index < bound) (hon : a'.On data chart) {x : s.Content} {met : List Pointer} {q : Nat}
    (hreads : ∀ v, (a'.view data).Within v → s.survey.Reads v data o.toNat x met q) :
    q < 2 ^ 32 := by
  obtain ⟨v, hv, hw, -, -⟩ := hon.exists_covers
  obtain ⟨x', met', q', hreads', hlt⟩ := h.readable s o hs h.holds v hv
  obtain ⟨-, -, rfl⟩ := (hreads v hw).unique hreads'
  exact hlt

end Chart.Admits

end DexGraph
