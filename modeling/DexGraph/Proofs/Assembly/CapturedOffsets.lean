import DexGraph.Proofs.Assembly.Changes
import DexGraph.Proofs.Assembly.Oblivious
import DexGraph.Proofs.Assembly.Rereading
import DexGraph.Proofs.Assembly.Rewriting
import DexGraph.Proofs.Format.Rows

/-!
# Captured offsets

Where offsets are kept, the layout that is read from an image has exactly the offsets of the image.
The items of a section come in the order of their offsets; each of them lies within the image, and
read again at its offset it has the same contents and takes the size that was recorded. An entry of
a table has the offset of its row, which does not wrap around. Where offsets are not kept, the
contents, their order and all sizes are the same, and nothing has an offset: `Dex.ofImage_offsets`.

The offsets and sizes of items belong to what makes an assembly valid. Those of rows are recorded
when an entry is added, and no change takes them away (`Assembly.Change.stamped`).
-/

namespace DexGraph

variable {α β : Type}

/-! ## Where rows stop -/

namespace Row

variable {data : Bytes} {p q : Nat}

/-- A row takes its size, within the bytes. -/
theorem stop_of_reads {α : Type} [Row α] [Exact α] (hsize : size α ≠ 0) {row : α}
    (h : Decoder.Reads decode data p row q) : q = p + size α ∧ q ≤ data.size := by
  obtain ⟨hat, rfl⟩ := Exact.holdsAt h
  have hlength : (encode row).toList.length = size α := by
    rw [Array.length_toList, Readable.size_encode]
  refine ⟨rfl, ?_⟩
  rw [← hlength]
  exact hat.add_length_le (List.ne_nil_of_length_pos (by omega))

theorem stop_of_reads_methodHandleRow {row : MethodHandleRow}
    (h : Decoder.Reads decode data p row q) : q = p + size MethodHandleRow ∧ q ≤ data.size := by
  obtain ⟨-, -, -, ⟨v, hat⟩, rfl⟩ := reads_methodHandleRow_iff.mp h
  refine ⟨rfl, ?_⟩
  have hle := hat.add_length_le (by rw [Ne, ← List.length_eq_zero_iff]; simp)
  simpa using hle

end Row

namespace Survey

/-- The survey stays where it is. -/
def Still (m : Survey α) : Prop :=
  ∀ v data p x met q, m.Reads v data p x met q → q = p

theorem still_pure {x : α} : (pure x : Survey α).Still :=
  fun _ _ _ _ _ _ h => (reads_pure_iff.mp h).2.2

theorem Still.bind {m : Survey α} {f : α → Survey β} (hm : m.Still) (hf : ∀ x, (f x).Still) :
    (m >>= f).Still := by
  intro v data p y met q h
  obtain ⟨x, first, r, rest, hx, hy, -⟩ := reads_bind_iff.mp h
  exact (hf x _ _ _ _ _ _ hy).trans (hm _ _ _ _ _ _ hx)

theorem still_fail {e : Error} : (decode (Decoder.fail e) : Survey α).Still :=
  fun _ _ _ _ _ _ h => absurd (reads_decode_iff.mp h).1 Decoder.not_reads_fail

theorem still_resolve {s : Section} {index : UInt32} : (resolve s index).Still :=
  fun _ _ _ _ _ _ h => (Decoder.reads_ofExcept_iff.mp (reads_decodeWith_iff.mp h).1).2

theorem still_resolveOrNone {s : Section} {index : UInt32} : (resolveOrNone s index).Still :=
  fun _ _ _ _ _ _ h => (Decoder.reads_ofExcept_iff.mp (reads_decodeWith_iff.mp h).1).2

theorem still_item {s : Section} {o : UInt32} : (item s o).Still :=
  fun _ _ _ _ _ _ h => (reads_item_iff.mp h).2.2

theorem still_item? {s : Section} {o : UInt32} : (item? s o).Still :=
  fun _ _ _ _ _ _ h => (reads_item?_iff.mp h).2.2.2

end Survey

open Survey in
/-- What an image shows of an entry of a table is its row. -/
theorem Section.stop_of_survey_row {s : Section} {n : Nat} (hs : s.rowSize? = some n) {v : View}
    {data : Bytes} {p q : Nat} {x : s.Content} {met : List Pointer}
    (h : s.survey.Reads v data p x met q) : q = p + n ∧ q ≤ data.size := by
  have hrow {γ : Type} {d : Decoder γ} {rest : γ → Survey s.Content}
      (hd : ∀ row r, d.Reads data p row r → r = p + n ∧ r ≤ data.size)
      (hrest : ∀ row, (rest row).Still) (h : (decode d >>= rest).Reads v data p x met q) :
      q = p + n ∧ q ≤ data.size := by
    obtain ⟨row, first, r, tail, hfirst, htail, -⟩ := reads_bind_iff.mp h
    obtain rfl := hrest row _ _ _ _ _ _ htail
    exact hd row q (reads_decode_iff.mp hfirst).1
  cases s with
  | stringId =>
    cases hs
    exact hrow (fun _ _ => Row.stop_of_reads (by decide)) (fun _ => still_item.bind fun _ =>
      still_pure) h
  | typeId =>
    cases hs
    exact hrow (fun _ _ => Row.stop_of_reads (by decide)) (fun _ => still_resolve.bind fun _ =>
      still_pure) h
  | protoId =>
    cases hs
    exact hrow (fun _ _ => Row.stop_of_reads (by decide)) (fun _ => still_resolve.bind fun _ =>
      still_resolve.bind fun _ => still_item?.bind fun _ => still_pure) h
  | fieldId | methodId =>
    cases hs
    exact hrow (fun _ _ => Row.stop_of_reads (by decide)) (fun _ => still_resolve.bind fun _ =>
      still_resolve.bind fun _ => still_resolve.bind fun _ => still_pure) h
  | classDef =>
    cases hs
    exact hrow (fun _ _ => Row.stop_of_reads (by decide)) (fun _ => still_resolve.bind fun _ =>
      still_resolveOrNone.bind fun _ => still_item?.bind fun _ => still_resolveOrNone.bind fun _ =>
      still_item?.bind fun _ => still_item?.bind fun _ => still_item?.bind fun _ => still_pure) h
  | callSiteId =>
    cases hs
    refine hrow (fun _ _ => Row.stop_of_reads (by decide)) (fun _ => still_item?.bind fun array => ?_)
      h
    cases array with
    | none => exact still_fail
    | some array => exact still_pure
  | methodHandle =>
    cases hs
    refine hrow (fun _ _ => Row.stop_of_reads_methodHandleRow) (fun row => ?_) h
    unfold MethodHandleRow.survey
    cases MethodHandleKind.ofCode? row.kind with
    | none => exact still_fail
    | some kind =>
      refine Still.bind ?_ fun _ => still_pure
      unfold HandleTarget.survey
      split
      · exact still_resolve.bind fun _ => still_pure
      · exact still_resolve.bind fun _ => still_pure
  | _ => cases hs

/-! ## Places of rows -/

namespace Assembly

variable {source : Source} {a a' : Assembly}

/-- The layout has the size of every entry of a table and, if offsets are kept, the offset of its
row. If they are not kept, it has no offset at all. -/
structure Stamped (source : Source) (a : Assembly) : Prop where
  size : ∀ (s : Section) (n : Nat), s.rowSize? = some n → ∀ r : Ref s,
    (a.layout.place r).size = n.toUInt32
  offset : source.options.keepOffsets = true → ∀ (s : Section) (n : Nat) (range : SectionRange),
    s.rowSize? = some n → source.range? s = some range → ∀ r : Ref s, a.graph.Has s r →
      (a.layout.place r).offset = some (range.offset + r.slot * n.toUInt32)
  clear : source.options.keepOffsets = false → ∀ (s : Section) (r : Ref s),
    (a.layout.place r).offset = none
  clear_hiddenapi : source.options.keepOffsets = false → a.layout.hiddenapi.offset = none

namespace Stamped

variable {s : Section} {x : s.Content} {r : Ref s}

/-- What the layout has of entities stays as long as it has no fewer places and there are no more
entries. -/
theorem congr (h : a.Stamped source) (hcount : ∀ s, a'.graph.count s = a.graph.count s)
    (hplace : ∀ (s : Section) (r : Ref s), a'.layout.place r = a.layout.place r)
    (hflags : source.options.keepOffsets = false → a.layout.hiddenapi.offset = none →
      a'.layout.hiddenapi.offset = none) : a'.Stamped source where
  size s n hs r := by
    rw [hplace]
    exact h.size s n hs r
  offset hkeep s n range hs hrange r hr := by
    rw [hplace]
    unfold Graph.Has at hr
    rw [hcount] at hr
    exact h.offset hkeep s n range hs hrange r hr
  clear hkeep s r := by
    rw [hplace]
    exact h.clear hkeep s r
  clear_hiddenapi hkeep := hflags hkeep (h.clear_hiddenapi hkeep)

/-- Adding a data item is no matter to the places of rows. -/
theorem enter (h : a.Stamped source) (hs : s.rowSize? = none) {key : ItemKey} {size : UInt32}
    (henter : a.enter source.options.keepOffsets s key size x = .ok (r, a')) :
    a'.Stamped source := by
  obtain ⟨-, hg, -, hlayout⟩ := of_enter henter
  have hne {t : Section} {n : Nat} (ht : t.rowSize? = some n) : t ≠ s := by
    rintro rfl
    cases hs.symm.trans ht
  refine ⟨fun t n ht r' => ?_, fun hkeep t n range ht hrange r' hr' => ?_, fun hkeep t r' => ?_,
    fun hkeep => ?_⟩
  · rw [hg.place_of_ne t (hne ht)]
    exact h.size t n ht r'
  · unfold Graph.Has Graph.count at hr'
    rw [hg.entities_of_ne t (hne ht)] at hr'
    rw [hg.place_of_ne t (hne ht)]
    exact h.offset hkeep t n range ht hrange r' hr'
  · rw [hlayout, hkeep]
    exact (Layout.offset_place_setSize ..).trans (h.clear hkeep t r')
  · rw [hlayout, hkeep]
    exact h.clear_hiddenapi hkeep

/-- Adding an entry of a table records the offset of its row. -/
theorem enterRow (h : a.Stamped source) (hc : (a.graph.entities s).Coherent) {range : SectionRange}
    (hrange : source.range? s = some range) {index : UInt32}
    (henter : a.enterRow source.options.keepOffsets s range.offset index x = .ok (r, a')) :
    a'.Stamped source := by
  obtain ⟨hindex, hg, -, hlayout⟩ := of_enterRow henter
  have hslot : r.slot = index := UInt32.toNat_inj.mp ((hg.pos_ref hc).trans hindex.symm)
  refine ⟨fun t n ht r' => ?_, fun hkeep t n range' ht hrange' r' hr' => ?_, fun hkeep t r' => ?_,
    fun hkeep => ?_⟩
  · rw [hlayout, Layout.size_place_captureOffset]
    exact h.size t n ht r'
  · by_cases hts : t = s
    · subst hts
      rcases (hg.has_iff hc r').mp hr' with hr' | rfl
      · have hne : r' ≠ r := by
          rintro rfl
          unfold Graph.Has at hr'
          rw [hg.pos_ref hc] at hr'
          exact Nat.lt_irrefl _ hr'
        rw [hg.place r' hne]
        exact h.offset hkeep t n range' ht hrange' r' hr'
      · cases hrange.symm.trans hrange'
        rw [hlayout, Layout.place_captureOffset_self, if_pos hkeep, hslot, ht]
        rfl
    · unfold Graph.Has Graph.count at hr'
      rw [hg.entities_of_ne t hts] at hr'
      rw [hg.place_of_ne t hts]
      exact h.offset hkeep t n range' ht hrange' r' hr'
  · rw [hlayout, hkeep]
    exact h.clear hkeep t r'
  · rw [hlayout, hkeep]
    exact h.clear_hiddenapi hkeep

end Stamped

/-- No change takes the places of rows away. -/
theorem Change.stamped (hchange : Change source a a') (ha : ∀ s, (a.graph.entities s).Coherent)
    (h : a.Stamped source) : a'.Stamped source := by
  cases hchange with
  | item hs _ henter => exact h.enter hs henter
  | members _ henter =>
    refine (h.enter rfl henter).congr (fun s => ?_) (fun _ _ => rfl) fun _ h => h
    rw [Graph.count_registerMethods, Graph.count_modify]
  | row _ hrange henter => exact h.enterRow (ha _) hrange henter
  | classRow _ henter =>
    exact (h.enterRow (ha _) rfl henter).congr (Graph.count_claim _ _ _) (fun _ _ => rfl)
      fun _ h => h
  | aside _ hitems _ _ hplace hflags =>
    refine h.congr (fun s => ?_) hplace hflags
    unfold Graph.count Collection.size
    rw [hitems]

theorem stamped_start (header : FileHeader) : (Assembly.start header).Stamped source := by
  have hplace (s : Section) (r : Ref s) : (Assembly.start header).layout.place r = .fresh s := by
    simp [start, Layout.ofHeader, Layout.place]
  have hcount (s : Section) : (Assembly.start header).graph.count s = 0 := by
    cases s <;> rfl
  refine ⟨fun s n hs r => ?_, fun _ s n range hs _ r hr => ?_, fun _ s r => ?_, fun _ => rfl⟩
  · rw [hplace, Place.fresh, hs]
    rfl
  · unfold Graph.Has at hr
    rw [hcount] at hr
    exact absurd hr (Nat.not_lt_zero _)
  · rw [hplace]
    rfl

end Assembly

/-! ## Exact offsets -/

/-- Both entities have offsets, and that of the first one is the smaller. -/
def Layout.Before (l : Layout) {s : Section} (r r' : Ref s) : Prop :=
  ∃ o o', (l.place r).offset = some o ∧ (l.place r').offset = some o' ∧ o < o'

namespace Assembly

variable {source : Source} {a a' : Assembly}

/-- The offsets of an assembly are those of the image. Every section lists its entities once, and
data items in ascending order of their offsets. An offset of the image stands for the item that has
this offset. Read again at its offset, an item has the same contents and takes the size that is
recorded, within the image, and nothing is changed. An entry of a table has the offset at which its
row starts, computed without wrapping around, and the row shows it. -/
structure Captured (source : Source) (a : Assembly) : Prop where
  coherent : ∀ s, (a.graph.entities s).Coherent
  ascending : ∀ s : Section, s.rowSize? = none →
    (a.graph.entities s).order.toList.Pairwise a.layout.Before
  find_iff : ∀ (s : Section) (o : UInt32) (r : Ref s), s.rowSize? = none →
    ((a.view source.data).find? s o = some r ↔
      a.graph.Has s r ∧ (a.layout.place r).offset = some o)
  item : ∀ (s : Section) (r : Ref s) (x : s.Content), s.rowSize? = none → a.graph.get? r = some x →
    ∃ o, (a.layout.place r).offset = some o ∧
      o.toNat + (a.layout.place r).size.toNat ≤ source.data.size ∧
      (Build.reading s o).run o.toNat source a =
        .ok ((s.bare x, o.toNat + (a.layout.place r).size.toNat), a)
  row : ∀ (s : Section) (n : Nat) (r : Ref s) (x : s.Content), s.rowSize? = some n →
    a.graph.get? r = some x → ∃ range met, source.range? s = some range ∧
      r.pos < range.size.toNat ∧
      a.layout.place r = ⟨some (range.offset + r.slot * n.toUInt32), n.toUInt32⟩ ∧
      (range.offset + r.slot * n.toUInt32).toNat = range.offset.toNat + r.pos * n ∧
      s.survey.Reads (a.view source.data) source.data (range.offset.toNat + r.pos * n) x met
        (range.offset.toNat + r.pos * n + n) ∧
      range.offset.toNat + r.pos * n + n ≤ source.data.size

namespace Valid

variable {s : Section}

/-- An offset stands for the item that has it. -/
theorem find?_iff (ha : a.Valid source) (hkeep : source.options.keepOffsets = true)
    (hs : s.rowSize? = none) {o : UInt32} {r : Ref s} :
    (a.view source.data).find? s o = some r ↔
      a.graph.Has s r ∧ (a.layout.place r).offset = some o := by
  have hplaced (hr : a.graph.Has s r) :
      ∃ o, (a.view source.data).find? s o = some r ∧ (a.layout.place r).offset = some o := by
    obtain ⟨x, hx⟩ := Graph.has_iff_exists.mp hr
    obtain ⟨o, met, q, hfind, -, -, hoffset⟩ := ha.placed s r x hs hx
    exact ⟨o, hfind, hoffset hkeep⟩
  constructor
  · intro hfind
    have hr := ha.closed s o r hs hfind
    obtain ⟨o', hfind', hoffset⟩ := hplaced hr
    exact ⟨hr, ha.find_inj hs hfind hfind' ▸ hoffset⟩
  · rintro ⟨hr, hoffset⟩
    obtain ⟨o', hfind, hoffset'⟩ := hplaced hr
    cases hoffset.symm.trans hoffset'
    exact hfind

/-- Where an item lies, how large it is and what is read there again. -/
theorem exists_reading (ha : a.Valid source) (hs : s.rowSize? = none) {r : Ref s} {x : s.Content}
    (hx : a.graph.get? r = some x) : ∃ o, (a.view source.data).find? s o = some r ∧
      o.toNat + (a.layout.place r).size.toNat ≤ source.data.size ∧
      (Build.reading s o).run o.toNat source a =
        .ok ((s.bare x, o.toNat + (a.layout.place r).size.toNat), a) := by
  obtain ⟨o, met, q, hfind, hreads, hsize, -⟩ := ha.placed s r x hs hx
  have hstart : o.toNat < source.data.size := Section.lt_size_of_survey hs (hreads _ (.refl _))
  obtain ⟨hrun, hle, hstop⟩ :=
    ha.retraces_reading hs o _ _ _ _ (hreads _ (.refl _)) (Nat.le_of_lt hstart)
  have hend : q = o.toNat + (a.layout.place r).size.toNat := by omega
  exact ⟨o, hfind, hend ▸ hstop, hend ▸ hrun⟩

/-- Where a row lies. Its end fits the image, so that the offset is computed without wrapping
around. -/
theorem exists_row (ha : a.Valid source) {n : Nat} (hs : s.rowSize? = some n) {r : Ref s}
    {x : s.Content} (hx : a.graph.get? r = some x) : ∃ range met, source.range? s = some range ∧
      r.pos < range.size.toNat ∧
      s.survey.Reads (a.view source.data) source.data (range.offset.toNat + r.pos * n) x met
        (range.offset.toNat + r.pos * n + n) ∧
      range.offset.toNat + r.pos * n + n ≤ source.data.size := by
  obtain ⟨p, hp, met, q, hreads, -⟩ := ha.shown s r x hx
  unfold Source.Starts at hp
  rw [hs] at hp
  obtain ⟨range, hrange, hpos, rfl⟩ := hp
  have hmembers : s ≠ .classData := by
    rintro rfl
    cases hs
  rw [Section.bare_of_ne hmembers] at hreads
  obtain ⟨rfl, hstop⟩ := Section.stop_of_survey_row hs (hreads _ (.refl _))
  exact ⟨range, met, hrange, hpos, hreads _ (.refl _), hstop⟩

/-- Two valid assemblies that found the same in an image have the same sizes of items. -/
theorem size_place_eq {source' : Source} (ha : a.Valid source) (ha' : a'.Valid source')
    (hdata : source'.data = source.data) (hgraph : a'.graph = a.graph) (hknown : a'.known = a.known)
    (hs : s.rowSize? = none) {r : Ref s} {x : s.Content} (hx : a.graph.get? r = some x) :
    (a'.layout.place r).size = (a.layout.place r).size := by
  have hview : a'.view source'.data = a.view source.data := by
    rw [view, view, hdata, hgraph, hknown]
  obtain ⟨o, met, q, hfind, hreads, hsize, -⟩ := ha.placed s r x hs hx
  obtain ⟨o', met', q', hfind', hreads', hsize', -⟩ := ha'.placed s r x hs (hgraph ▸ hx)
  rw [hview] at hfind' hreads'
  rw [hdata] at hreads'
  obtain rfl := ha.find_inj hs hfind hfind'
  obtain ⟨-, -, rfl⟩ := (hreads _ (.refl _)).unique (hreads' _ (.refl _))
  exact UInt32.toNat_inj.mp (hsize'.trans hsize.symm)

end Valid

/-- Multiplying an index with the size of a row does not wrap around as long as the row fits. -/
theorem toNat_rowOffset {offset slot : UInt32} {n : Nat}
    (h : offset.toNat + slot.toNat * n + n < 2 ^ 32) :
    (offset + slot * n.toUInt32).toNat = offset.toNat + slot.toNat * n := by
  have hn : n.toUInt32.toNat = n := toNat_toUInt32 (by omega)
  rw [UInt32.toNat_add, UInt32.toNat_mul, hn, Nat.mod_eq_of_lt (a := slot.toNat * n) (by omega),
    Nat.mod_eq_of_lt (by omega)]

theorem Valid.captured (ha : a.Valid source) (hstamped : a.Stamped source)
    (horder : ∀ s : Section, s.rowSize? = none →
      (a.graph.entities s).order = (a.known.get s).inKeyOrder)
    (hkeep : source.options.keepOffsets = true) (hsize : source.data.size < 2 ^ 32) :
    a.Captured source where
  coherent := ha.coherent
  ascending s hs := by
    rw [horder s hs]
    refine ha.pairwise_inKeyOrder.imp ?_
    rintro r r' ⟨o, o', ho, ho', hlt⟩
    exact ⟨o, o', ((ha.find?_iff hkeep hs).mp ho).2, ((ha.find?_iff hkeep hs).mp ho').2,
      UInt32.lt_iff_toNat_lt.mpr hlt⟩
  find_iff s o r hs := ha.find?_iff hkeep hs
  item s r x hs hx := by
    obtain ⟨o, hfind, hrest⟩ := ha.exists_reading hs hx
    exact ⟨o, ((ha.find?_iff hkeep hs).mp hfind).2, hrest⟩
  row s n r x hs hx := by
    obtain ⟨range, met, hrange, hpos, hreads, hstop⟩ := ha.exists_row hs hx
    have hplace : a.layout.place r = ⟨some (range.offset + r.slot * n.toUInt32), n.toUInt32⟩ := by
      rw [← hstamped.offset hkeep s n range hs hrange r (Graph.has_of_get? hx),
        ← hstamped.size s n hs r]
    exact ⟨range, met, hrange, hpos, hplace, toNat_rowOffset (hstop.trans_lt hsize), hreads, hstop⟩

end Assembly

/-! ## Images -/

/-- An assembly into which a whole image has been read is valid, has the places of rows, and has its
items in the order of their keys. -/
theorem Build.of_all (source : Source) {header : FileHeader} {a : Assembly}
    (hsize : source.data.size < 2 ^ 32) (hrun : all source (.start header) = .ok ((), a)) :
    a.Valid source ∧ a.Stamped source ∧ ∀ s : Section, s.rowSize? = none →
      (a.graph.entities s).order = (a.known.get s).inKeyOrder := by
  have hstart := built_start source header 18
  obtain ⟨classes, hcomplete⟩ := (establishes_all hsize hstart).of_ok hrun
  obtain ⟨b, hbefore, hafter, hsorted⟩ := (establishes_all_becomes (.start header)).of_ok hrun
  have ha := hcomplete.built.valid
  have hcount (s : Section) : a.graph.count s < 2 ^ 32 := (ha.coherent s).size_lt
  refine ⟨ha, (hbefore.trans hafter).preserves (fun _ _ => Assembly.Change.stamped)
    hstart.valid.coherent hcount (Assembly.stamped_start header), fun s hs => ?_⟩
  have hentities := hsorted.entities s
  rw [if_pos (Section.mem_dataSections.mpr hs), ← hsorted.known] at hentities
  have hsame : (b.graph.entities s).size = a.graph.count s := by
    unfold Graph.count
    rw [hentities]
    rfl
  rw [hentities]
  exact ha.order_sort hs (hbefore.coherent hstart.valid.coherent
    (fun t => (hafter.count_le t).trans_lt (hcount t)) s) hsame

namespace Dex

/-- What has been assembled from an image is what is read from it. -/
theorem ofImage_of_all {options : BuildOptions} {image : Image} {map : MapList} {a : Assembly}
    (hmap : MapList.read image.data image.header.mapOffset = .ok map)
    (hrun : Build.all ⟨image.data, image.header, map, options⟩ (.start image.header) = .ok ((), a)) :
    ofImage options image = .ok ⟨a.graph, a.layout, {}⟩ := by
  rw [ofImage_eq, hmap]
  dsimp only
  rw [hrun]

/-- An image that is read with its offsets has exactly these offsets in the layout. It is read
without them as well: then the contents, their order and all sizes are the same, and nothing has an
offset. -/
theorem ofImage_offsets {image : Image} {d : Dex} (h : ofImage .preserving image = .ok d) :
    (∃ map a, MapList.read image.data image.header.mapOffset = .ok map ∧
      Build.all ⟨image.data, image.header, map, .preserving⟩ (.start image.header) = .ok ((), a) ∧
      d = ⟨a.graph, a.layout, {}⟩ ∧
      a.Captured ⟨image.data, image.header, map, .preserving⟩) ∧
    ∃ d', ofImage .relayout image = .ok d' ∧ d'.graph = d.graph ∧
      (∀ (s : Section) (r : Ref s), d.graph.Has s r →
        d'.layout.place r = (d.layout.place r).clear) ∧
      d'.layout.hiddenapi = d.layout.hiddenapi.clear := by
  obtain ⟨map, a, hmap, hrun, rfl⟩ := exists_all_of_ofImage h
  let source : Source := ⟨image.data, image.header, map, .preserving⟩
  obtain ⟨ha, hstamped, horder⟩ := Build.of_all source image.size_data_lt hrun
  refine ⟨⟨map, a, hmap, hrun, rfl, ha.captured hstamped horder rfl image.size_data_lt⟩, ?_⟩
  have hagree := Build.oblivious_all source false (.start image.header) _ ⟨rfl, rfl, rfl⟩
  rw [hrun] at hagree
  cases hrun' : Build.all (source.keeping false) (.start image.header) with
  | error e =>
    rw [hrun'] at hagree
    exact hagree.elim
  | ok out =>
    rw [hrun'] at hagree
    obtain ⟨-, hgraph, hknown, hflags⟩ := hagree
    obtain ⟨ha', hstamped', -⟩ := Build.of_all (source.keeping false) image.size_data_lt hrun'
    refine ⟨_, ofImage_of_all hmap hrun', hgraph.symm, fun s r hr => ?_, ?_⟩
    · have hsize : (out.2.layout.place r).size = (a.layout.place r).size := by
        cases hs : s.rowSize? with
        | none =>
          obtain ⟨x, hx⟩ := Graph.has_iff_exists.mp hr
          exact ha.size_place_eq ha' rfl hgraph.symm hknown.symm hs hx
        | some n => exact (hstamped'.size s n hs r).trans (hstamped.size s n hs r).symm
      rw [Place.clear, ← hsize, ← hstamped'.clear rfl s r]
    · rw [Place.clear, hflags, ← hstamped'.clear_hiddenapi rfl]

/-- The image of a graph with a body, debug info and a handler is read with its offsets. -/
theorem ofImage_offsets_oneMethod : ∃ image d, ofImage .preserving image = .ok d ∧
    (d.layout.place (⟨0⟩ : Ref .codeItem)).offset.isSome ∧
    (∃ map a, MapList.read image.data image.header.mapOffset = .ok map ∧
      Build.all ⟨image.data, image.header, map, .preserving⟩ (.start image.header) = .ok ((), a) ∧
      d = ⟨a.graph, a.layout, {}⟩ ∧
      a.Captured ⟨image.data, image.header, map, .preserving⟩) ∧
    ∃ d', ofImage .relayout image = .ok d' ∧ d'.graph = d.graph ∧
      (∀ (s : Section) (r : Ref s), d.graph.Has s r →
        d'.layout.place r = (d.layout.place r).clear) ∧
      d'.layout.hiddenapi = d.layout.hiddenapi.clear := by
  have hread : ((Graph.oneMethod.write .relayout .empty).1.toOption.bind fun bytes =>
      ((Image.load bytes).bind (ofImage .preserving)).toOption).any
        (fun d => (d.layout.place (⟨0⟩ : Ref .codeItem)).offset.isSome) = true := by
    unfold ofImage
    simp only [Graph.write, Writer.writeImage, Writer.closeImage, Writer.stampHeader,
      FileHeader.store, Stream.contents, Bytes.overlay_eq_laid, Image.data_eq_take,
      Writer.writeMapList, mapListOf, MapEntry.mergeSort_le]
    decide +kernel
  obtain ⟨d, hd, hoffset⟩ := Option.any_eq_true .. |>.mp hread
  obtain ⟨bytes, -, hread⟩ := Option.bind_eq_some_iff.mp hd
  obtain ⟨image, himage⟩ := exists_ofImage_of_load hread
  exact ⟨image, d, himage, hoffset, ofImage_offsets himage⟩

end Dex

end DexGraph
