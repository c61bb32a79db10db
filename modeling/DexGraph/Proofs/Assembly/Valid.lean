import DexGraph.Proofs.Assembly.Ensures
import DexGraph.Proofs.Graph.OffsetIndex
import Mathlib.Data.Finset.Card

/-!
# Valid assemblies

An assembly is valid if it shows what the image shows: every entity is what a survey reads where
the entity starts, in every view that agrees with the assembly and may have more entities. Its
indexes of offsets are exact: they name every data item once. `Assembly.Valid.enter` and
`Assembly.Valid.enterRow` say that the two ways of adding entities keep an assembly valid.
-/

namespace DexGraph

/-! ## Keys -/

namespace ItemKey

instance : Std.TransOrd ItemKey :=
  inferInstanceAs (Std.TransCmp (compareLex (compareOn offset) (compareOn debugInfoOffset)))

instance : Std.LawfulEqOrd ItemKey where
  eq_of_compare {k k'} h := by
    obtain ⟨o, d⟩ := k
    obtain ⟨o', d'⟩ := k'
    change (compare o o').then (compare d d') = .eq at h
    rw [Ordering.then_eq_eq] at h
    rw [Std.LawfulEqOrd.eq_of_compare h.1, Std.LawfulEqOrd.eq_of_compare h.2]

/-- The key under which the item at an offset of an image is known. -/
def ofItem (data : Bytes) : Section → UInt32 → ItemKey
  | .codeItem, offset =>
    match CodeHeader.decode.runAt data offset.toNat with
    | .ok (header, _) => ⟨offset, header.debugInfoOffset⟩
    | .error _ => .ofOffset offset
  | _, offset => .ofOffset offset

@[simp] theorem offset_ofItem (data : Bytes) (s : Section) (offset : UInt32) :
    (ofItem data s offset).offset = offset := by
  cases s with
  | codeItem =>
    simp only [ofItem]
    split <;> rfl
  | _ => rfl

theorem ofItem_codeItem {data : Bytes} {offset : UInt32} {header : CodeHeader} {q : Nat}
    (h : CodeHeader.decode.Reads data offset.toNat header q) :
    ofItem data .codeItem offset = ⟨offset, header.debugInfoOffset⟩ := by
  unfold Decoder.Reads at h
  simp only [ofItem, h]

end ItemKey

/-! ## Views -/

namespace View

/-- The second view has all that the first one has, at the same offsets. -/
structure Within (v w : View) : Prop where
  narrower : v.graph.Narrower w.graph
  find : ∀ {s o r}, v.find? s o = some r → w.find? s o = some r

variable {v w : View}

theorem Within.refl (v : View) : v.Within v where
  narrower _ := Nat.le_refl _
  find h := h

theorem Within.trans {u : View} (h : u.Within v) (h' : v.Within w) : u.Within w where
  narrower s := Nat.le_trans (h.narrower s) (h'.narrower s)
  find hr := h'.find (h.find hr)

end View

/-- The pointer stands for an item, or it is the offset zero, which stands for none. There is no
such offset for strings. -/
def Pointer.Answered (v : View) (t : Pointer) : Prop :=
  (v.find? t.target t.offset).isSome ∨ t.offset = 0 ∧ t.target ≠ .stringData

theorem Pointer.Answered.mono {v w : View} {t : Pointer} (h : t.Answered v) (hw : v.Within w) :
    t.Answered w := by
  refine h.imp_left fun hsome => ?_
  obtain ⟨r, hr⟩ := Option.isSome_iff_exists.mp hsome
  exact Option.isSome_iff_exists.mpr ⟨r, hw.find hr⟩

/-! ## Assemblies -/

/-- Where the rows of a table lie: as the header says, or the map list. -/
def Source.range? (source : Source) : Section → Option SectionRange
  | .stringId => some source.header.stringIds
  | .typeId => some source.header.typeIds
  | .protoId => some source.header.protoIds
  | .fieldId => some source.header.fieldIds
  | .methodId => some source.header.methodIds
  | .classDef => some source.header.classDefs
  | .methodHandle => (source.map.find? .methodHandleItem).map fun e => ⟨e.size, e.offset⟩
  | .callSiteId => (source.map.find? .callSiteIdItem).map fun e => ⟨e.size, e.offset⟩
  | _ => none

/-- Where an entity starts in the image: a data item at its offset, an entry of a table at its
row. -/
def Source.Starts (source : Source) (v : View) (s : Section) (r : Ref s) (p : Nat) : Prop :=
  match s.rowSize? with
  | none => ∃ offset : UInt32, v.find? s offset = some r ∧ p = offset.toNat
  | some size => ∃ range, source.range? s = some range ∧ r.pos < range.size.toNat ∧
      p = range.offset.toNat + r.pos * size

/-- The members of a class without the notes about where they belong. -/
def ClassData.bare (c : ClassData) : ClassData where
  classDef := none
  staticFields := c.staticFields.map fun f => { f with classData := none }
  instanceFields := c.instanceFields.map fun f => { f with classData := none }
  directMethods := c.directMethods.map fun m => { m with classData := none }
  virtualMethods := c.virtualMethods.map fun m => { m with classData := none }

/-- The content of an entity as far as an image shows it. -/
def Section.bare : (s : Section) → s.Content → s.Content
  | .classData, c => c.bare
  | _, x => x

/-- The layout has the size of an item that starts at an offset and ends at a position. It has the
offset as well if offsets are kept. -/
def Layout.Locates (l : Layout) (keep : Bool) {s : Section} (r : Ref s) (o : UInt32) (q : Nat) :
    Prop :=
  (l.place r).size.toNat = q - o.toNat ∧ (keep = true → (l.place r).offset = some o)

theorem Layout.Locates.congr {l l' : Layout} {keep : Bool} {s : Section} {r : Ref s} {o : UInt32}
    {q : Nat} (h : l.Locates keep r o q) (hplace : l'.place r = l.place r) :
    l'.Locates keep r o q := by
  unfold Locates
  rwa [hplace]

namespace Assembly

variable {source : Source} {a a' : Assembly}

/-- What has been found so far. -/
def view (a : Assembly) (data : Bytes) : View where
  graph := a.graph
  find? s offset := (a.known.get s).get? (.ofItem data s offset)

/-- The image shows the content at a position, whatever else will be found. -/
def Shows (a : Assembly) (data : Bytes) (s : Section) (p : Nat) (x : s.Content) : Prop :=
  ∃ met q, (∀ v, (a.view data).Within v → s.survey.Reads v data p x met q) ∧
    ∀ t ∈ met, t.Answered (a.view data)

theorem Shows.mono {data : Bytes} {s : Section} {p : Nat} {x : s.Content}
    (h : a.Shows data s p x) (hw : (a.view data).Within (a'.view data)) :
    a'.Shows data s p x := by
  obtain ⟨met, q, hreads, hmet⟩ := h
  exact ⟨met, q, fun v hv => hreads v (hw.trans hv), fun t ht => (hmet t ht).mono hw⟩

/-- Everything that has been assembled is as the image shows it, and everything that the indexes
find is there once, under the key that belongs to its offset. The layout has the place of every data
item. -/
structure Valid (source : Source) (a : Assembly) : Prop where
  coherent : ∀ s, (a.graph.entities s).Coherent
  has_iff : ∀ s, s.rowSize? = none → ∀ r : Ref s,
    a.graph.Has s r ↔ ∃ o, (a.view source.data).find? s o = some r
  find_inj : ∀ {s o o' r}, s.rowSize? = none → (a.view source.data).find? s o = some r →
    (a.view source.data).find? s o' = some r → o = o'
  find_zero : ∀ {s}, s ≠ .stringData → (a.view source.data).find? s 0 = none
  keyed : ∀ {s : Section} {key : ItemKey} {r : Ref s}, (a.known.get s).get? key = some r →
    key = .ofItem source.data s key.offset
  shown : ∀ (s : Section) (r : Ref s) (x : s.Content), a.graph.get? r = some x →
    ∃ p, source.Starts (a.view source.data) s r p ∧ a.Shows source.data s p (s.bare x)
  placed : ∀ (s : Section) (r : Ref s) (x : s.Content), s.rowSize? = none →
    a.graph.get? r = some x → ∃ o met q, (a.view source.data).find? s o = some r ∧
      (∀ v, (a.view source.data).Within v → s.survey.Reads v source.data o.toNat (s.bare x) met q) ∧
      a.layout.Locates source.options.keepOffsets r o q

theorem Valid.closed (h : a.Valid source) : (a.view source.data).Closed :=
  fun s o r hs hr => (h.has_iff s hs r).mpr ⟨o, hr⟩

/-- The image shows an entity at one place only. -/
theorem Valid.starts_unique (h : a.Valid source) {s : Section} {r : Ref s} {p p' : Nat}
    (hp : source.Starts (a.view source.data) s r p)
    (hp' : source.Starts (a.view source.data) s r p') : p = p' := by
  unfold Source.Starts at hp hp'
  cases hs : s.rowSize? with
  | none =>
    rw [hs] at hp hp'
    obtain ⟨o, ho, rfl⟩ := hp
    obtain ⟨o', ho', rfl⟩ := hp'
    rw [h.find_inj hs ho ho']
  | some size =>
    rw [hs] at hp hp'
    obtain ⟨range, hrange, -, rfl⟩ := hp
    obtain ⟨range', hrange', -, rfl⟩ := hp'
    rw [Option.some.inj (hrange.symm.trans hrange')]

end Assembly

theorem Source.Starts.mono {source : Source} {v w : View} {s : Section} {r : Ref s} {p : Nat}
    (h : source.Starts v s r p) (hw : v.Within w) : source.Starts w s r p := by
  unfold Starts at h ⊢
  cases hs : s.rowSize? with
  | none =>
    simp only [hs] at h ⊢
    obtain ⟨o, ho, hp⟩ := h
    exact ⟨o, hw.find ho, hp⟩
  | some size => simpa only [hs] using h

/-! ## Counting -/

namespace Assembly.Valid

variable {source : Source} {a : Assembly} {s : Section}

/-- An offset that is not known leaves room: the items of a section lie at distinct other bytes of
the image. -/
theorem size_lt (h : a.Valid source) (hs : s.rowSize? = none) {o : UInt32}
    (ho : o.toNat < source.data.size) (hnew : (a.view source.data).find? s o = none) :
    a.graph.count s < source.data.size := by
  have hroom : ∀ i ∈ Finset.range (a.graph.count s), ∃ o : UInt32,
      (a.view source.data).find? s o = some (.ofPos i) := by
    intro i hi
    have hpos : (Ref.ofPos i : Ref s).pos = i :=
      Ref.pos_ofPos (Nat.lt_trans (Finset.mem_range.mp hi) (h.coherent s).size_lt)
    exact (h.has_iff s hs _).mp (by
      unfold Graph.Has
      rw [hpos]
      exact Finset.mem_range.mp hi)
  choose! at? hat using hroom
  have hmaps : ∀ i ∈ Finset.range (a.graph.count s),
      (at? i).toNat ∈ (Finset.range source.data.size).erase o.toNat := by
    intro i hi
    rw [Finset.mem_erase, Finset.mem_range]
    constructor
    · intro heq
      have hfound := hat i hi
      rw [UInt32.toNat_inj.mp heq, hnew] at hfound
      cases hfound
    · obtain ⟨x, hx⟩ := Graph.has_iff_exists.mp ((h.has_iff s hs _).mpr ⟨_, hat i hi⟩)
      obtain ⟨p, hp, met, q, hreads, -⟩ := h.shown s _ x hx
      unfold Source.Starts at hp
      rw [hs] at hp
      obtain ⟨o', ho', rfl⟩ := hp
      rw [h.find_inj hs (hat i hi) ho']
      exact Section.lt_size_of_survey hs (hreads _ (.refl _))
  have hinj : Set.InjOn (fun i => (at? i).toNat) (Finset.range (a.graph.count s)) := by
    intro i hi j hj hij
    rw [Finset.coe_range, Set.mem_Iio] at hi hj
    have hfound := hat i (Finset.mem_range.mpr hi)
    rw [UInt32.toNat_inj.mp hij, hat j (Finset.mem_range.mpr hj), Option.some.injEq] at hfound
    have hpos := congrArg Ref.pos hfound
    rw [Ref.pos_ofPos (Nat.lt_trans hi (h.coherent s).size_lt),
      Ref.pos_ofPos (Nat.lt_trans hj (h.coherent s).size_lt)] at hpos
    exact hpos.symm
  have hcard := Finset.card_le_card_of_injOn _ hmaps hinj
  rw [Finset.card_range, Finset.card_erase_of_mem (Finset.mem_range.mpr ho),
    Finset.card_range] at hcard
  omega

end Assembly.Valid

/-! ## Adding entities -/

theorem Graph.methodItems_setEntities (g : Graph) (s : Section) (c : Collection s) :
    (g.setEntities s c).methodItems = g.methodItems := by
  cases s <;> rfl

/-- The graphs are the same beside their entities and the locators of methods. -/
structure Graph.Beside (g g' : Graph) : Prop where
  magic : g'.magic = g.magic
  endianTag : g'.endianTag = g.endianTag
  linkData : g'.linkData = g.linkData
  hiddenapi : g'.hiddenapi = g.hiddenapi

namespace Graph.Beside

variable {g g' g'' : Graph}

theorem refl (g : Graph) : g.Beside g where
  magic := rfl
  endianTag := rfl
  linkData := rfl
  hiddenapi := rfl

theorem trans (h : g.Beside g') (h' : g'.Beside g'') : g.Beside g'' where
  magic := h'.magic.trans h.magic
  endianTag := h'.endianTag.trans h.endianTag
  linkData := h'.linkData.trans h.linkData
  hiddenapi := h'.hiddenapi.trans h.hiddenapi

theorem setEntities (h : g.Beside g') (s : Section) (c : Collection s) :
    g.Beside (g'.setEntities s c) := by
  refine h.trans ?_
  cases s <;> exact ⟨rfl, rfl, rfl, rfl⟩

end Graph.Beside

/-- The layouts are the same beside the places of entities. -/
structure Layout.Beside (l l' : Layout) : Prop where
  sectionOffset : ∀ s, l'.sectionOffset s = l.sectionOffset s
  rest : l' = { l with sections := l'.sections }

namespace Layout.Beside

variable {l l' l'' : Layout} {s : Section}

theorem refl (l : Layout) : l.Beside l where
  sectionOffset _ := rfl
  rest := rfl

theorem trans (h : l.Beside l') (h' : l'.Beside l'') : l.Beside l'' where
  sectionOffset s := (h'.sectionOffset s).trans (h.sectionOffset s)
  rest := by
    rw [h'.rest, h.rest]

theorem setSize (l : Layout) (r : Ref s) (size : UInt32) : l.Beside (l.setSize r size) where
  sectionOffset _ := l.sectionOffset_modifyPlace r _
  rest := rfl

theorem captureOffset (l : Layout) (keep : Bool) (r : Ref s) (offset : UInt32) :
    l.Beside (l.captureOffset keep r offset) := by
  cases keep with
  | false => exact refl l
  | true => exact ⟨fun _ => l.sectionOffset_modifyPlace r _, rfl⟩

end Layout.Beside

/-- The assemblies are the same beside their entities, the places of these and the locators of
methods. -/
structure Assembly.Beside (a a' : Assembly) : Prop where
  graph : a.graph.Beside a'.graph
  layout : a.layout.Beside a'.layout

theorem Assembly.Beside.refl (a : Assembly) : a.Beside a where
  graph := .refl _
  layout := .refl _

theorem Assembly.Beside.trans {a a' a'' : Assembly} (h : a.Beside a') (h' : a'.Beside a'') :
    a.Beside a'' where
  graph := h.graph.trans h'.graph
  layout := h.layout.trans h'.layout

namespace Assembly

variable {source : Source} {a a' : Assembly} {s : Section} {x : s.Content} {r : Ref s}

/-- The second assembly is the first one with an entity more. -/
structure Grown (a a' : Assembly) (s : Section) (x : s.Content) (r : Ref s) : Prop where
  ref : r = ((a.graph.entities s).add x).1
  entities_self : a'.graph.entities s = ((a.graph.entities s).add x).2
  entities_of_ne : ∀ t, t ≠ s → a'.graph.entities t = a.graph.entities t
  methodItems : a'.graph.methodItems = a.graph.methodItems
  beside : a.Beside a'
  known_of_ne : ∀ t, t ≠ s → a'.known.get t = a.known.get t
  place : ∀ r', r' ≠ r → a'.layout.place r' = a.layout.place r'
  place_of_ne : ∀ t, t ≠ s → ∀ r' : Ref t, a'.layout.place r' = a.layout.place r'

namespace Grown

variable (hg : a.Grown a' s x r)
include hg

theorem narrower : a.graph.Narrower a'.graph := by
  intro t
  unfold Graph.count
  by_cases ht : t = s
  · subst ht
    rw [hg.entities_self, Collection.size_add]
    exact Nat.le_succ _
  · rw [hg.entities_of_ne t ht]

theorem pos_ref (hc : (a.graph.entities s).Coherent) : r.pos = a.graph.count s := by
  rw [hg.ref]
  exact Ref.pos_ofPos hc.size_lt

theorem has_iff (hc : (a.graph.entities s).Coherent) (r' : Ref s) :
    a'.graph.Has s r' ↔ a.graph.Has s r' ∨ r' = r := by
  have hpos := hg.pos_ref hc
  unfold Graph.Has Graph.count at hpos ⊢
  rw [hg.entities_self, Collection.size_add, ← Ref.pos_inj]
  omega

theorem get?_self (hc : (a.graph.entities s).Coherent) (r' : Ref s) :
    a'.graph.get? r' = if r' = r then some x else a.graph.get? r' := by
  unfold Graph.get?
  rw [hg.entities_self, Collection.get?_add hc.size_lt, hg.ref]

theorem get?_of_ne {t : Section} (ht : t ≠ s) (r' : Ref t) :
    a'.graph.get? r' = a.graph.get? r' := by
  unfold Graph.get?
  rw [hg.entities_of_ne t ht]

/-- The new entity was not there before. -/
theorem get?_ref (hc : (a.graph.entities s).Coherent) : a.graph.get? r = none := by
  cases h : a.graph.get? r with
  | none => rfl
  | some y =>
    have hhas := Graph.has_of_get? h
    unfold Graph.Has at hhas
    rw [hg.pos_ref hc] at hhas
    exact absurd hhas (Nat.lt_irrefl _)

/-- What was there before is still there. -/
theorem get?_of_get? (hc : (a.graph.entities s).Coherent) {t : Section} {r' : Ref t}
    {y : t.Content} (h : a.graph.get? r' = some y) : a'.graph.get? r' = some y := by
  by_cases ht : t = s
  · subst ht
    rw [hg.get?_self hc, if_neg, h]
    rintro rfl
    rw [hg.get?_ref hc] at h
    cases h
  · rw [hg.get?_of_ne ht, h]

theorem coherent (hc : ∀ t, (a.graph.entities t).Coherent)
    (hsize : a.graph.count s + 1 < 2 ^ 32) (t : Section) : (a'.graph.entities t).Coherent := by
  by_cases ht : t = s
  · subst ht
    rw [hg.entities_self]
    exact (hc t).add hsize x
  · rw [hg.entities_of_ne t ht]
    exact hc t

end Grown

/-- Everything that is shown stays shown when more is found, so only a new entity has to be looked
at. -/
theorem Valid.shown_of_grown (h : a.Valid source) (hg : a.Grown a' s x r)
    (hw : (a.view source.data).Within (a'.view source.data)) {p : Nat}
    (hp : source.Starts (a'.view source.data) s r p)
    (hx : a'.Shows source.data s p (s.bare x)) (t : Section) (r' : Ref t) (y : t.Content)
    (hy : a'.graph.get? r' = some y) :
    ∃ p, source.Starts (a'.view source.data) t r' p ∧ a'.Shows source.data t p (t.bare y) := by
  have hold (hy : a.graph.get? r' = some y) : ∃ p, source.Starts (a'.view source.data) t r' p ∧
      a'.Shows source.data t p (t.bare y) := by
    obtain ⟨p, hp, hshows⟩ := h.shown t r' y hy
    exact ⟨p, hp.mono hw, hshows.mono hw⟩
  by_cases ht : t = s
  · subst ht
    rw [hg.get?_self (h.coherent t)] at hy
    split at hy
    · cases hy
      rename_i heq
      exact ⟨p, heq ▸ hp, hx⟩
    · exact hold hy
  · rw [hg.get?_of_ne ht] at hy
    exact hold hy

/-- What has a place keeps it when more is found. -/
theorem Valid.placed_of_grown (h : a.Valid source) (hg : a.Grown a' s x r)
    (hw : (a.view source.data).Within (a'.view source.data)) {t : Section} {r' : Ref t}
    {y : t.Content} (ht : t.rowSize? = none) (hy : a.graph.get? r' = some y) :
    ∃ o met q, (a'.view source.data).find? t o = some r' ∧
      (∀ v, (a'.view source.data).Within v → t.survey.Reads v source.data o.toNat (t.bare y) met q) ∧
      a'.layout.Locates source.options.keepOffsets r' o q := by
  obtain ⟨o, met, q, ho, hreads, hlocates⟩ := h.placed t r' y ht hy
  refine ⟨o, met, q, hw.find ho, fun v hv => hreads v (hw.trans hv), hlocates.congr ?_⟩
  by_cases hts : t = s
  · subst hts
    refine hg.place r' ?_
    rintro rfl
    rw [hg.get?_ref (h.coherent t)] at hy
    cases hy
  · exact hg.place_of_ne t hts r'

/-! ### Data items -/

theorem locates_captureOffset (l : Layout) (keep : Bool) (r : Ref s) {size o : UInt32} {q : Nat}
    (hq : size.toNat = q - o.toNat) :
    ((l.setSize r size).captureOffset keep r o).Locates keep r o q := by
  have hsize : ((l.setSize r size).place r).size = size :=
    congrArg Place.size ((l.place_modifyPlace r r _).trans (if_pos rfl))
  cases keep with
  | false => exact ⟨(congrArg UInt32.toNat hsize).trans hq, by simp⟩
  | true =>
    have hplace : ((l.setSize r size).captureOffset true r o).place r =
        { (l.setSize r size).place r with offset := some o } :=
      ((l.setSize r size).place_modifyPlace r r _).trans (if_pos rfl)
    refine ⟨?_, fun _ => congrArg Place.offset hplace⟩
    rw [hplace]
    exact (congrArg UInt32.toNat hsize).trans hq

/-- Adding a data item under a key that was not known. -/
theorem exists_enter_of_key (keep : Bool) {key : ItemKey} (size : UInt32) (x : s.Content)
    (hnew : ((a.known.get s).get? key : Option (Ref s)) = none) :
    ∃ r a', a.enter keep s key size x = .ok (r, a') ∧ a.Grown a' s x r ∧
      (∀ key', ((a'.known.get s).get? key' : Option (Ref s)) =
        if key' = key then some r else (a.known.get s).get? key') ∧
      a'.layout = (a.layout.setSize r size).captureOffset keep r key.offset := by
  obtain ⟨index, hregister, hindex⟩ :=
    OffsetIndex.register_of_get?_eq_none (c := a.graph.entities s) hnew key.offset x
  have hknown (t : Section) : (a.known.modify s fun _ => index).get t =
      if s = t then index else a.known.get t :=
    PerSection.get_modify a.known s t _
  refine ⟨((a.graph.entities s).add x).1,
    ⟨(a.graph.setEntities s ∅).setEntities s ((a.graph.entities s).add x).2,
      (a.layout.setSize ((a.graph.entities s).add x).1 size).captureOffset keep
        ((a.graph.entities s).add x).1 key.offset, a.known.modify s fun _ => index⟩,
    by simp only [enter, Graph.takeEntities, hregister], ?_, fun key' => ?_, rfl⟩
  · refine ⟨rfl, Graph.entities_setEntities_self _ _ _, fun t ht => ?_, ?_,
      ⟨((Graph.Beside.refl _).setEntities _ _).setEntities _ _,
        (Layout.Beside.setSize ..).trans (.captureOffset ..)⟩, fun t ht => ?_, fun r' hr' => ?_,
      fun t ht r' => ?_⟩
    · rw [Graph.entities_setEntities_of_ne _ _ (Ne.symm ht),
        Graph.entities_setEntities_of_ne _ _ (Ne.symm ht)]
    · rw [Graph.methodItems_setEntities, Graph.methodItems_setEntities]
    · exact (hknown t).trans (if_neg (Ne.symm ht))
    · exact (Layout.place_captureOffset _ hr' _).trans
        ((a.layout.place_modifyPlace _ r' _).trans (if_neg (Ne.symm hr')))
    · exact (Layout.place_captureOffset_of_ne _ ht _ r' _).trans
        (a.layout.place_modifyPlace_of_ne (Ne.symm ht) _ r' _)
  · rw [hknown, if_pos rfl, hindex]

/-- What a data item that has been added was added to. -/
theorem of_enter {keep : Bool} {key : ItemKey} {size : UInt32}
    (h : a.enter keep s key size x = .ok (r, a')) :
    ((a.known.get s).get? key : Option (Ref s)) = none ∧ a.Grown a' s x r ∧
      (∀ key', ((a'.known.get s).get? key' : Option (Ref s)) =
        if key' = key then some r else (a.known.get s).get? key') ∧
      a'.layout = (a.layout.setSize r size).captureOffset keep r key.offset := by
  cases hkey : ((a.known.get s).get? key : Option (Ref s)) with
  | some r' =>
    simp only [enter, Graph.takeEntities, OffsetIndex.register_of_get?_eq_some hkey] at h
    cases h
  | none =>
    obtain ⟨r', a'', henter, hrest⟩ := exists_enter_of_key keep size x hkey
    cases h.symm.trans henter
    exact ⟨rfl, hrest⟩

/-- Adding a data item under the key of an offset that was not known. -/
theorem exists_enter (keep : Bool) (data : Bytes) (o size : UInt32) (x : s.Content)
    (hnew : (a.view data).find? s o = none) :
    ∃ r a', a.enter keep s (.ofItem data s o) size x = .ok (r, a') ∧ a.Grown a' s x r ∧
      (∀ o', (a'.view data).find? s o' = if o' = o then some r else (a.view data).find? s o') ∧
      (∀ key, key ≠ .ofItem data s o →
        ((a'.known.get s).get? key : Option (Ref s)) = (a.known.get s).get? key) ∧
      ∀ q, size.toNat = q - o.toNat → a'.layout.Locates keep r o q := by
  obtain ⟨r, a', henter, hgrown, hkeys, hlayout⟩ := exists_enter_of_key keep size x hnew
  refine ⟨r, a', henter, hgrown, fun o' => ?_, fun key hkey => (hkeys key).trans (if_neg hkey),
    fun q hq => ?_⟩
  · have hkey : (ItemKey.ofItem data s o' = .ofItem data s o) = (o' = o) := by
      rw [eq_iff_iff]
      constructor
      · intro hkey
        simpa using congrArg ItemKey.offset hkey
      · rintro rfl
        rfl
    simp only [view, hkeys, hkey]
  · rw [hlayout, ItemKey.offset_ofItem]
    exact locates_captureOffset _ _ _ hq

/-- Adding what the image shows at an offset that was not known keeps an assembly valid. -/
theorem Valid.enter (h : a.Valid source) (hs : s.rowSize? = none) {o : UInt32}
    (hnew : (a.view source.data).find? s o = none) (hzero : o = 0 → s = .stringData)
    (hsize : source.data.size < 2 ^ 32) (hg : a.Grown a' s x r)
    (hfind : ∀ o', (a'.view source.data).find? s o' =
      if o' = o then some r else (a.view source.data).find? s o')
    (hkeys : ∀ key, key ≠ .ofItem source.data s o →
      ((a'.known.get s).get? key : Option (Ref s)) = (a.known.get s).get? key)
    {met : List Pointer} {q : Nat} (hreads : ∀ v, (a.view source.data).Within v →
      s.survey.Reads v source.data o.toNat (s.bare x) met q)
    (hmet : ∀ t ∈ met, t.Answered (a.view source.data))
    (hlocates : a'.layout.Locates source.options.keepOffsets r o q) :
    a'.Valid source ∧ (a.view source.data).Within (a'.view source.data) := by
  have ho : o.toNat < source.data.size := Section.lt_size_of_survey hs (hreads _ (.refl _))
  have hcount := h.size_lt hs ho hnew
  have hfind_of_ne {t : Section} (ht : t ≠ s) (o' : UInt32) :
      (a'.view source.data).find? t o' = (a.view source.data).find? t o' := by
    simp only [view, hg.known_of_ne t ht]
  have hself (o' : UInt32) (r' : Ref s) : (a'.view source.data).find? s o' = some r' ↔
      o' = o ∧ r' = r ∨ (a.view source.data).find? s o' = some r' := by
    rw [hfind o']
    by_cases heq : o' = o
    · rw [if_pos heq, heq, hnew]
      simp [eq_comm]
    · simp [heq]
  have hw : (a.view source.data).Within (a'.view source.data) := by
    refine ⟨hg.narrower, fun {t o' r'} hr => ?_⟩
    by_cases ht : t = s
    · subst ht
      exact (hself o' r').mpr (.inr hr)
    · rw [hfind_of_ne ht, hr]
  have hfresh (o' : UInt32) : (a.view source.data).find? s o' ≠ some r := by
    intro hr
    have hhas := (h.has_iff s hs r).mpr ⟨o', hr⟩
    unfold Graph.Has at hhas
    rw [hg.pos_ref (h.coherent s)] at hhas
    exact Nat.lt_irrefl _ hhas
  refine ⟨⟨hg.coherent h.coherent (by omega), fun t ht r' => ?_, fun {t o₁ o₂ r'} ht h₁ h₂ => ?_,
    fun {t} ht => ?_, fun {t key r'} hr => ?_, ?_, fun t r' y ht hy => ?_⟩, hw⟩
  · by_cases hts : t = s
    · subst hts
      rw [hg.has_iff (h.coherent t), h.has_iff t ht]
      simp only [hself, exists_or]
      rw [or_comm]
      simp
    · have hcount' : a'.graph.Has t r' ↔ a.graph.Has t r' := by
        unfold Graph.Has Graph.count
        rw [hg.entities_of_ne t hts]
      rw [hcount', h.has_iff t ht]
      simp only [hfind_of_ne hts]
  · by_cases hts : t = s
    · subst hts
      rcases (hself o₁ r').mp h₁ with ⟨rfl, rfl⟩ | h₁
      · rcases (hself o₂ r').mp h₂ with ⟨rfl, -⟩ | h₂
        · rfl
        · exact absurd h₂ (hfresh o₂)
      · rcases (hself o₂ r').mp h₂ with ⟨rfl, rfl⟩ | h₂
        · exact absurd h₁ (hfresh o₁)
        · exact h.find_inj ht h₁ h₂
    · rw [hfind_of_ne hts] at h₁ h₂
      exact h.find_inj ht h₁ h₂
  · by_cases hts : t = s
    · subst hts
      rw [hfind, if_neg (fun h0 => ht (hzero h0.symm)), h.find_zero ht]
    · rw [hfind_of_ne hts, h.find_zero ht]
  · by_cases hts : t = s
    · subst hts
      by_cases hkey : key = .ofItem source.data t o
      · rw [hkey, ItemKey.offset_ofItem]
      · exact h.keyed ((hkeys key hkey).symm.trans hr)
    · rw [hg.known_of_ne t hts] at hr
      exact h.keyed hr
  · have hx : a.Shows source.data s o.toNat (s.bare x) := ⟨met, q, hreads, hmet⟩
    refine h.shown_of_grown hg hw (p := o.toNat) ?_ (hx.mono hw)
    unfold Source.Starts
    rw [hs]
    exact ⟨o, (hself o r).mpr (.inl ⟨rfl, rfl⟩), rfl⟩
  · by_cases hts : t = s
    · subst hts
      rw [hg.get?_self (h.coherent t)] at hy
      split at hy
      · cases hy
        rename_i heq
        subst heq
        exact ⟨o, met, q, (hself o r').mpr (.inl ⟨rfl, rfl⟩), fun v hv => hreads v (hw.trans hv),
          hlocates⟩
      · exact h.placed_of_grown hg hw ht hy
    · rw [hg.get?_of_ne hts] at hy
      exact h.placed_of_grown hg hw ht hy

/-! ### Entries of tables -/

/-- Adding the entry of a table that comes next. -/
theorem exists_enterRow (keep : Bool) (table : UInt32) {index : UInt32} (x : s.Content)
    (h : index.toNat = a.graph.count s) :
    ∃ r a', a.enterRow keep s table index x = .ok (r, a') ∧ a.Grown a' s x r ∧
      a'.known = a.known := by
  have hadd : (a.graph.entities s).addAt index x = .ok ((a.graph.entities s).add x) := if_pos h
  refine ⟨((a.graph.entities s).add x).1, { a with
      graph := (a.graph.setEntities s ∅).setEntities s ((a.graph.entities s).add x).2
      layout := a.layout.captureOffset keep ((a.graph.entities s).add x).1
        (table + index * (s.rowSize?.getD 0).toUInt32) },
    by simp only [enterRow, Graph.takeEntities, hadd], ?_, rfl⟩
  refine ⟨rfl, Graph.entities_setEntities_self _ _ _, fun t ht => ?_, ?_,
    ⟨((Graph.Beside.refl _).setEntities _ _).setEntities _ _, .captureOffset ..⟩, fun t ht => rfl,
    fun r' hr' => Layout.place_captureOffset _ hr' _,
    fun t ht r' => Layout.place_captureOffset_of_ne _ ht _ r' _⟩
  · rw [Graph.entities_setEntities_of_ne _ _ (Ne.symm ht),
      Graph.entities_setEntities_of_ne _ _ (Ne.symm ht)]
  · rw [Graph.methodItems_setEntities, Graph.methodItems_setEntities]

theorem enterRow_of_ne (keep : Bool) (table : UInt32) {index : UInt32} (x : s.Content)
    (h : index.toNat ≠ a.graph.count s) :
    a.enterRow keep s table index x =
      .error (.malformed (.rowOutOfOrder s index (a.graph.count s))) := by
  have hadd : (a.graph.entities s).addAt index x =
      .error (.malformed (.rowOutOfOrder s index (a.graph.count s))) := if_neg h
  simp only [enterRow, Graph.takeEntities, hadd]

/-- What an entry that has been added was added to: it is the one that came next. -/
theorem of_enterRow {keep : Bool} {table index : UInt32}
    (h : a.enterRow keep s table index x = .ok (r, a')) :
    index.toNat = a.graph.count s ∧ a.Grown a' s x r ∧ a'.known = a.known ∧
      a'.layout = a.layout.captureOffset keep r (table + index * (s.rowSize?.getD 0).toUInt32) := by
  by_cases hindex : index.toNat = a.graph.count s
  · obtain ⟨r', a'', henter, hgrown, hknown⟩ := exists_enterRow keep table x hindex
    cases h.symm.trans henter
    refine ⟨hindex, hgrown, hknown, ?_⟩
    have hadd : (a.graph.entities s).addAt index x = .ok ((a.graph.entities s).add x) :=
      if_pos hindex
    simp only [enterRow, Graph.takeEntities, hadd] at h
    cases h
    rfl
  · rw [enterRow_of_ne keep table x hindex] at h
    cases h

/-- Adding the entry of a table that the image shows at its row keeps an assembly valid. -/
theorem Valid.enterRow (h : a.Valid source) {size : Nat} (hs : s.rowSize? = some size)
    {range : SectionRange} (hrange : source.range? s = some range)
    (hg : a.Grown a' s x r) (hknown : a'.known = a.known)
    (hindex : a.graph.count s < range.size.toNat)
    (hx : a.Shows source.data s (range.offset.toNat + a.graph.count s * size) (s.bare x)) :
    a'.Valid source ∧ (a.view source.data).Within (a'.view source.data) := by
  have hrow := h.coherent s
  have hfind (t : Section) (o : UInt32) :
      (a'.view source.data).find? t o = (a.view source.data).find? t o := by
    simp only [view, hknown]
  have hw : (a.view source.data).Within (a'.view source.data) :=
    ⟨hg.narrower, fun {t o r} hr => by rw [hfind, hr]⟩
  have hlt := range.size.toNat_lt
  refine ⟨⟨hg.coherent h.coherent (by omega), fun t ht r' => ?_, fun {t o₁ o₂ r'} ht h₁ h₂ => ?_,
    fun {t} ht => ?_, fun hr => h.keyed (hknown ▸ hr), ?_, fun t r' y ht hy => ?_⟩, hw⟩
  · have hts : t ≠ s := by
      rintro rfl
      rw [ht] at hs
      cases hs
    have hcount' : a'.graph.Has t r' ↔ a.graph.Has t r' := by
      unfold Graph.Has Graph.count
      rw [hg.entities_of_ne t hts]
    rw [hcount', h.has_iff t ht]
    simp only [hfind]
  · rw [hfind] at h₁ h₂
    exact h.find_inj ht h₁ h₂
  · rw [hfind, h.find_zero ht]
  · refine h.shown_of_grown hg hw (p := range.offset.toNat + a.graph.count s * size) ?_
      (hx.mono hw)
    unfold Source.Starts
    rw [hs]
    exact ⟨range, hrange, by rw [hg.pos_ref hrow]; exact hindex, by rw [hg.pos_ref hrow]⟩
  · have hts : t ≠ s := by
      rintro rfl
      rw [ht] at hs
      cases hs
    rw [hg.get?_of_ne hts] at hy
    exact h.placed_of_grown hg hw ht hy

/-! ## Changes that show nothing new -/

/-- Notes of members and the order of entities are no matter of what the image shows, as long as
every entity keeps its place. -/
theorem Valid.of_same (h : a.Valid source) (hknown : a'.known = a.known)
    (hcoherent : ∀ s, (a'.graph.entities s).Coherent)
    (hcount : ∀ s, a'.graph.count s = a.graph.count s)
    (hget : ∀ (s : Section) (r : Ref s) (y : s.Content), a'.graph.get? r = some y →
      ∃ x, a.graph.get? r = some x ∧ s.bare x = s.bare y)
    (hplace : ∀ (s : Section) (r : Ref s), a'.layout.place r = a.layout.place r) :
    a'.Valid source ∧ (a.view source.data).Within (a'.view source.data) := by
  have hfind (t : Section) (o : UInt32) :
      (a'.view source.data).find? t o = (a.view source.data).find? t o := by
    simp only [view, hknown]
  have hw : (a.view source.data).Within (a'.view source.data) :=
    ⟨fun s => (hcount s).ge, fun {t o r} hr => by rw [hfind, hr]⟩
  refine ⟨⟨hcoherent, fun t ht r => ?_, fun {t o₁ o₂ r} ht h₁ h₂ => ?_, fun {t} ht => ?_,
    fun hr => h.keyed (hknown ▸ hr), fun t r y hy => ?_, fun t r y ht hy => ?_⟩, hw⟩
  · unfold Graph.Has
    rw [hcount]
    simp only [hfind]
    exact h.has_iff t ht r
  · rw [hfind] at h₁ h₂
    exact h.find_inj ht h₁ h₂
  · rw [hfind, h.find_zero ht]
  · obtain ⟨x, hx, hbare⟩ := hget t r y hy
    obtain ⟨p, hp, hshows⟩ := h.shown t r x hx
    exact ⟨p, hp.mono hw, hbare ▸ hshows.mono hw⟩
  · obtain ⟨x, hx, hbare⟩ := hget t r y hy
    obtain ⟨o, met, q, ho, hreads, hlocates⟩ := h.placed t r x ht hx
    exact ⟨o, met, q, hw.find ho, fun v hv => hbare ▸ hreads v (hw.trans hv),
      hlocates.congr (hplace t r)⟩

end Assembly

end DexGraph
