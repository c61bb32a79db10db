import DexGraph.Proofs.Codec.HiddenApiShape
import DexGraph.Proofs.Writing.Kept
import DexGraph.Proofs.Writing.Relayout
import DexGraph.Proofs.Writing.Selection

/-!
# Writing back what has not been placed

A graph that is written under the layout it has needs an offset for every data item that is
written, for the hidden-API flags, and for every table that has entries: without one, writing
fails (`Graph.write_unplaced`), and for want of an offset if nothing else keeps the entities from
being encoded. The entries of a table go where the table is. Their own offsets are not looked at, so
a table that has grown is written over what follows it (`Graph.write_grown`).
-/

namespace DexGraph

namespace Graph

/-- Everything that a layout has to place to be kept has its offset. -/
structure Placed (g : Graph) (l : Layout) : Prop where
  tables : ∀ s : Section, s.rowSize? ≠ none → g.count s ≠ 0 → ∃ o, l.sectionOffset s = some o
  items : ∀ s : Section, s.rowSize? = none → ∀ r, g.Written l s r → l.Assigned s r
  hiddenapi : g.hiddenapi.isSome → ∃ o, l.hiddenapi.offset = some o

/-- Nothing but a missing offset keeps an entity from being encoded. -/
structure Encodable (g : Graph) : Prop where
  entities : ∀ (s : Section) (r : Ref s) x l e, g.get? r = some x → s.encode l x = .error e →
    e.LacksOffset
  sizes : ∀ (s : Section) (r : Ref s) x l item, g.get? r = some x → s.encode l x = .ok item →
    item.length < 2 ^ 32
  hiddenapi : ∀ flags, g.hiddenapi = some flags → flags.byteSize < 2 ^ 32

/-- The error says that an offset is missing, if nothing else can go wrong. -/
def Blames (g : Graph) (e : Error) : Prop :=
  g.Encodable → e.LacksOffset

end Graph

/-- Two layouts assign the same offsets to all entities, to the hidden-API flags and to the
tables. -/
structure Layout.SameOffsets (l l' : Layout) : Prop where
  place : ∀ (s : Section) (r : Ref s), (l'.place r).offset = (l.place r).offset
  tables : ∀ s : Section, s.rowSize? ≠ none → l'.sectionOffset s = l.sectionOffset s
  hiddenapi : l'.hiddenapi.offset = l.hiddenapi.offset

namespace Layout.SameOffsets

variable {l l' : Layout} {s : Section}

theorem refl (l : Layout) : l.SameOffsets l :=
  ⟨fun _ _ => rfl, fun _ _ => rfl, rfl⟩

theorem symm (h : l.SameOffsets l') : l'.SameOffsets l :=
  ⟨fun s r => (h.place s r).symm, fun s hs => (h.tables s hs).symm, h.hiddenapi.symm⟩

theorem assigned_iff (h : l.SameOffsets l') {r : Ref s} : l'.Assigned s r ↔ l.Assigned s r := by
  rw [Assigned, Assigned, h.place]

/-- Recording a place whose offset is known already. -/
theorem setPlace (h : l.SameOffsets l') {r : Ref s} {p : Place}
    (hp : (l'.place r).offset = p.offset) : l.SameOffsets (l'.setPlace r p) where
  place t r' := by
    by_cases hst : s = t
    · subst hst
      rw [place_setPlace]
      split
      · rename_i hr
        rw [← hp, ← h.place, hr]
      · exact h.place s r'
    · rw [place_setPlace_of_ne l' hst]
      exact h.place t r'
  tables t ht := by
    rw [sectionOffset_setPlace]
    exact h.tables t ht
  hiddenapi := h.hiddenapi

theorem setSize (h : l.SameOffsets l') (r : Ref s) (size : UInt32) :
    l.SameOffsets (l'.setSize r size) where
  place t r' := by
    rw [offset_place_setSize]
    exact h.place t r'
  tables t ht := by
    rw [sectionOffset_setSize]
    exact h.tables t ht
  hiddenapi := h.hiddenapi

theorem setSectionOffset (h : l.SameOffsets l') (hs : s.rowSize? = none) (o : Option UInt32) :
    l.SameOffsets (l'.setSectionOffset s o) where
  place t r := by
    rw [place_setSectionOffset]
    exact h.place t r
  tables t ht := by
    have hst : s ≠ t := by
      rintro rfl
      exact ht hs
    rw [sectionOffset_setSectionOffset, if_neg hst]
    exact h.tables t ht
  hiddenapi := h.hiddenapi

end Layout.SameOffsets

theorem Graph.Written.congr {g : Graph} {l l' : Layout} (h : l.SameOffsets l') {s : Section}
    {r : Ref s} : g.Written l' s r ↔ g.Written l s r := by
  cases s with
  | codeItem | debugInfo => simp only [Written, h.assigned_iff]
  | _ => exact Iff.rfl

namespace Writer

variable {g : Graph} {options : WriteOptions} {l : Layout} {d : Draft} {s : Section}

/-! ## Data items -/

theorem toWord_position {r : Ref s} {x : s.Content} {l : Layout} {item : Stream}
    (hx : g.get? r = some x) (hitem : s.encode l x = .ok item) {start : Nat} {e : Error}
    (he : toWord (start + item.position - start) = .error e) : g.Blames e := by
  intro hg
  rw [Nat.add_sub_cancel_left, (Section.tight_of_encode hitem).position_eq] at he
  exact absurd he (toWord_ne_error (hg.sizes s r x l item hx hitem))

/-- A data item is written only if it has an offset. -/
theorem establishes_writeItem (hkeep : options.computeOffsets = false)
    {encode : Layout → s.Content → Except Error Stream}
    (hencode : ∀ l x, encode l x = s.encode l x) (h : l.SameOffsets d.layout) {r : Ref s}
    (hr : g.Has s r) (first : UInt32) :
    Establishes (g.job options) g.Blames (writeItem s encode first r)
      (fun _ d' => l.SameOffsets d'.layout ∧ l.Assigned s r) d := by
  obtain ⟨x, hx⟩ := Graph.has_iff_exists.mp hr
  unfold writeItem
  rw [establishes_bind, establishes_read]
  simp only [Graph.job, hx, establishes_bind, establishes_get]
  cases ho : (d.layout.place r).offset with
  | none =>
    rw [establishes_place_none hkeep]
    exact fun _ => ⟨_, rfl⟩
  | some o =>
    rw [establishes_place_some hkeep]
    simp only [establishes_bind, establishes_get, establishes_ofExcept,
      establishes_changeStream, establishes_tell, establishes_changeLayout, establishes_pure,
      hencode, Stream.position_append, Stream.position_seek]
    refine ⟨fun item hitem => ⟨fun size _ => ⟨h.setPlace ho, ?_⟩, fun e he => ?_⟩, fun e he => ?_⟩
    · exact h.assigned_iff.mp ⟨o, ho⟩
    · exact toWord_position hx hitem he
    · exact fun hg => hg.entities s r x _ e hx he

/-- Data items of a section are written only if all of them have offsets. -/
theorem establishes_writeItems (hkeep : options.computeOffsets = false) (hs : s.rowSize? = none)
    {encode : Layout → s.Content → Except Error Stream}
    (hencode : ∀ l x, encode l x = s.encode l x) (h : l.SameOffsets d.layout)
    {refs : Array (Ref s)} (hrefs : ∀ r ∈ refs, g.Has s r) :
    Establishes (g.job options) g.Blames (writeItems s refs encode)
      (fun _ d' => l.SameOffsets d'.layout ∧ ∀ r ∈ refs, l.Assigned s r) d := by
  simp only [writeItems, establishes_ite, establishes_pure]
  refine ⟨fun hempty => ⟨h, fun r hr => ?_⟩, fun _ => ?_⟩
  · rw [Array.isEmpty_iff.mp hempty] at hr
    exact absurd hr (Array.not_mem_empty r)
  · refine (establishes_foldlM_each (I := fun d' => l.SameOffsets d'.layout)
      (fun r hr first d' h' => establishes_writeItem hkeep hencode h' (hrefs r hr) first) h).bind ?_
    rintro first d' ⟨h', hall⟩
    simp only [establishes_bind, establishes_computesOffsets, establishes_get, establishes_ite,
      establishes_changeLayout, establishes_pure]
    exact ⟨fun _ => ⟨h'.setSectionOffset hs _, hall⟩, fun _ => ⟨h', hall⟩⟩

/-- The data items of a section are written only if all of them have offsets. -/
theorem establishes_writeSection (hg : g.Sound) (hkeep : options.computeOffsets = false)
    (hs : s.rowSize? = none) {encode : Layout → s.Content → Except Error Stream}
    (hencode : ∀ l x, encode l x = s.encode l x) (h : l.SameOffsets d.layout) :
    Establishes (g.job options) g.Blames (writeSection s encode)
      (fun _ d' => l.SameOffsets d'.layout ∧ ∀ r, g.Has s r → l.Assigned s r) d := by
  unfold writeSection
  rw [establishes_bind, establishes_read]
  refine (establishes_writeItems hkeep hs hencode h fun r hr => hg.mem_order.mp hr).mono ?_
  exact fun _ _ h' => ⟨h'.1, fun r hr => h'.2 r (hg.mem_order.mpr hr)⟩

/-! ## Bodies -/

/-- A body is written only if it has an offset. -/
theorem establishes_writeBody (h : l.SameOffsets d.layout) {r : Ref .codeItem}
    (hr : g.Has .codeItem r) (first : UInt32) :
    Establishes (g.job options) g.Blames (writeBody first r)
      (fun _ d' => l.SameOffsets d'.layout ∧ l.Assigned .codeItem r) d := by
  obtain ⟨code, hcode⟩ := Graph.has_iff_exists.mp hr
  have hencode : Section.codeItem.encode d.layout code =
      (do code.encode (← d.layout.offsetOrZero code.debugInfo)) := rfl
  unfold writeBody
  rw [establishes_bind, establishes_read]
  simp only [Graph.job, hcode, establishes_bind, establishes_get, establishes_ofExcept,
    establishes_changeStream, establishes_tell, Stream.position_append, Stream.position_seek,
    establishes_changeLayout, establishes_pure]
  refine ⟨fun o ho => ⟨fun debug hdebug => ⟨fun item hitem => ⟨fun size hsize => ?_,
    fun e he => ?_⟩, fun e he => ?_⟩, fun e he => ?_⟩, fun e he => ?_⟩
  · exact ⟨h.setSize r size, h.assigned_iff.mp ⟨o, Layout.offsetOf_eq_ok_iff.mp ho⟩⟩
  · refine toWord_position hcode (l := d.layout) ?_ he
    rw [hencode]
    exact Except.bind_eq_ok_iff.mpr ⟨debug, hdebug, hitem⟩
  · refine fun hg => hg.entities .codeItem r code d.layout e hcode ?_
    rw [hencode]
    exact Except.bind_eq_error_iff.mpr (.inr ⟨debug, hdebug, he⟩)
  · refine fun hg => hg.entities .codeItem r code d.layout e hcode ?_
    rw [hencode]
    exact Except.bind_eq_error_iff.mpr (.inl he)
  · unfold Layout.offsetOf at he
    split at he
    · cases he
    · cases he
      exact fun _ => ⟨_, rfl⟩

/-- The bodies are written only if all that are written have offsets. -/
theorem establishes_writeCode (hg : g.Sound) (hkeep : options.computeOffsets = false)
    (h : l.SameOffsets d.layout) :
    Establishes (g.job options) g.Blames writeCode (fun _ d' => l.SameOffsets d'.layout ∧
      ∀ r, g.Written l .codeItem r → l.Assigned .codeItem r) d := by
  unfold writeCode
  refine (establishes_codeRefs hg).bind ?_
  rintro refs d ⟨rfl, -, hrefs⟩
  rw [establishes_bind, establishes_tell]
  refine (establishes_foldlM_each (I := fun d' => l.SameOffsets d'.layout)
    (fun r hr first d' h' => establishes_writeBody h' ((hrefs r).mp hr).has first) h).bind ?_
  rintro first d' ⟨h', hall⟩
  have hall (r : Ref .codeItem) (hr : g.Written l .codeItem r) : l.Assigned .codeItem r :=
    hall r ((hrefs r).mpr ((Graph.Written.congr h).mpr hr))
  have hoptions : (g.job options).options.computeOffsets = false := hkeep
  simp only [establishes_bind, establishes_get, establishes_ite, establishes_changeLayout,
    establishes_computesOffsets, hoptions, Bool.false_eq_true, false_imp_iff, true_and,
    not_false_eq_true, true_imp_iff, establishes_pure]
  exact ⟨fun _ => ⟨h'.setSectionOffset rfl _, hall⟩, fun _ => ⟨h', hall⟩⟩

/-- The hidden-API flags are written only if they have an offset. -/
theorem establishes_writeHiddenapi (hkeep : options.computeOffsets = false)
    (h : l.SameOffsets d.layout) :
    Establishes (g.job options) g.Blames writeHiddenapi (fun _ d' => l.SameOffsets d'.layout ∧
      (g.hiddenapi.isSome → ∃ o, l.hiddenapi.offset = some o)) d := by
  unfold writeHiddenapi
  rw [establishes_bind, establishes_read]
  cases hflags : (g.job options).graph.hiddenapi with
  | none =>
    have hflags : g.hiddenapi = none := hflags
    exact ⟨h, by simp [hflags]⟩
  | some flags =>
    have hflags : g.hiddenapi = some flags := hflags
    simp only [establishes_bind, establishes_get]
    cases ho : d.layout.hiddenapi.offset with
    | none =>
      rw [establishes_place_none hkeep]
      exact fun _ => ⟨_, rfl⟩
    | some o =>
      rw [establishes_place_some hkeep]
      simp only [establishes_bind, establishes_changeStream, establishes_tell,
        establishes_changeLayout, establishes_ofExcept, Stream.position_append,
        Stream.position_seek]
      refine ⟨fun item hitem => ⟨fun size _ => ⟨⟨h.place, h.tables, ?_⟩, fun _ => ?_⟩,
        fun e he => ?_⟩, fun e he hg => ?_⟩
      · exact ho.symm.trans h.hiddenapi
      · exact ⟨o, h.hiddenapi.symm.trans ho⟩
      · -- The size of the section is a word, so it never fails to be one.
        obtain ⟨needed, hneeded, hitem⟩ := Except.bind_eq_ok_iff.mp hitem
        cases hitem
        simp only [Nat.add_sub_cancel_left, Stream.position_skip, Stream.position_seek,
          Nat.zero_add] at he
        exact absurd he (toWord_ne_error (UInt32.toNat_lt _))
      · simp only [HiddenApi.encode, Except.bind_eq_error_iff, Except.pure_ne_error, and_false,
          exists_false, or_false] at he
        exact absurd he (toWord_ne_error (hg.hiddenapi flags hflags))

/-! ## Tables -/

/-- A table is written only if it has an offset. -/
theorem establishes_fillTable {row : Type} [Row row]
    {toRow : Layout → s.Content → Except Error row}
    (hrow : ∀ l x, s.encode l x = (do return Stream.ofBytes (Row.encode (← toRow l x))))
    (hg : g.Sound) (hs : s.rowSize? ≠ none) (h : l.SameOffsets d.layout) :
    Establishes (g.job options) g.Blames (fillTable s toRow) (fun _ d' => l.SameOffsets d'.layout ∧
      (g.count s ≠ 0 → ∃ o, l.sectionOffset s = some o)) d := by
  simp only [fillTable, establishes_bind, establishes_read, establishes_ite, establishes_get,
    establishes_pure]
  refine ⟨fun hempty => ⟨h, fun hcount => absurd ?_ hcount⟩, fun _ => ?_⟩
  · simpa [Graph.job, Graph.count, Collection.size] using hempty
  · cases ho : d.layout.sectionOffset s with
    | none => exact fun _ => ⟨_, rfl⟩
    | some o =>
      simp only [establishes_bind, establishes_changeStream]
      refine (establishes_rows hrow (fun x hx e he hg' => ?_) o.toNat).mono ?_
      · obtain ⟨r, hr⟩ := hg.exists_get?_of_mem hx
        exact hg'.entities s r x d.layout e hr he
      · rintro _ d' ⟨out, -, hstored⟩
        rw [hstored.layout_eq]
        exact ⟨h, fun _ => ⟨o, (h.tables s hs).symm.trans ho⟩⟩

/-! ## The whole image -/

/-- The tables of a list have their offsets. -/
private def TablesPlaced (g : Graph) (l : Layout) (tables : List Section) : Prop :=
  ∀ s ∈ tables, g.count s ≠ 0 → ∃ o, l.sectionOffset s = some o

private theorem establishes_writeTables_placed (hg : g.Sound)
    (hkeep : options.computeOffsets = false) (h : l.SameOffsets d.layout) :
    Establishes (g.job options) g.Blames writeTables (fun _ d' => l.SameOffsets d'.layout ∧
      TablesPlaced g l [.typeId, .fieldId, .methodId, .methodHandle]) d := by
  have hoptions : (g.job options).options.computeOffsets = false := hkeep
  unfold writeTables
  rw [establishes_bind, establishes_reserveTable hoptions, establishes_bind,
    establishes_writeTable hoptions]
  refine (establishes_fillTable (s := .typeId) (fun _ _ => rfl) hg (by decide) h).mono fun _ d h₁ => ?_
  rw [establishes_bind, establishes_reserveTable hoptions, establishes_bind,
    establishes_writeTable hoptions]
  refine (establishes_fillTable (s := .fieldId) (fun _ _ => rfl) hg (by decide) h₁.1).mono
    fun _ d h₂ => ?_
  rw [establishes_bind, establishes_writeTable hoptions]
  refine (establishes_fillTable (s := .methodId) (fun _ _ => rfl) hg (by decide) h₂.1).mono
    fun _ d h₃ => ?_
  rw [establishes_bind, establishes_reserveTable hoptions, establishes_bind,
    establishes_reserveTable hoptions, establishes_writeTable hoptions]
  refine (establishes_fillTable (s := .methodHandle) (fun _ _ => rfl) hg (by decide) h₃.1).mono
    fun _ d h₄ => ⟨h₄.1, ?_⟩
  simp only [TablesPlaced, List.forall_mem_cons, List.not_mem_nil, false_imp_iff, implies_true,
    and_true]
  exact ⟨h₁.2, h₂.2, h₃.2, h₄.2⟩

private theorem establishes_fillTables_placed (hg : g.Sound) (h : l.SameOffsets d.layout) :
    Establishes (g.job options) g.Blames fillTables (fun _ _ =>
      TablesPlaced g l [.stringId, .protoId, .classDef, .callSiteId]) d := by
  unfold fillTables
  refine (establishes_fillTable (s := .stringId) (fun _ _ => rfl) hg (by decide) h).bind fun _ d h₁ => ?_
  refine (establishes_fillTable (s := .protoId) (fun _ _ => rfl) hg (by decide) h₁.1).bind
    fun _ d h₂ => ?_
  refine (establishes_fillTable (s := .classDef) (fun _ _ => rfl) hg (by decide) h₂.1).bind
    fun _ d h₃ => ?_
  refine (establishes_fillTable (s := .callSiteId) (fun _ _ => rfl) hg (by decide) h₃.1).mono
    fun _ d h₄ => ?_
  simp only [TablesPlaced, List.forall_mem_cons, List.not_mem_nil, false_imp_iff, implies_true,
    and_true]
  exact ⟨h₁.2, h₂.2, h₃.2, h₄.2⟩

private theorem establishes_writeData_placed (hg : g.Sound)
    (hkeep : options.computeOffsets = false) (h : l.SameOffsets d.layout) :
    Establishes (g.job options) g.Blames writeData (fun _ d' => l.SameOffsets d'.layout ∧
      (∀ s : Section, s.rowSize? = none → ∀ r, g.Written l s r → l.Assigned s r) ∧
        (g.hiddenapi.isSome → ∃ o, l.hiddenapi.offset = some o)) d := by
  unfold writeData
  rw [establishes_bind, establishes_reserveCode hkeep]
  refine (establishes_debugInfoRefs hg).bind ?_
  rintro refs d ⟨rfl, -, hrefs⟩
  refine (establishes_writeItems hkeep rfl (fun _ _ => rfl) h fun r hr =>
    ((hrefs r).mp hr).has).bind fun _ d h₁ => ?_
  refine (establishes_writeCode hg hkeep h₁.1).bind fun _ d h₂ => ?_
  refine (establishes_writeSection (s := .encodedArray) hg hkeep rfl (fun _ _ => rfl) h₂.1).bind
    fun _ d h₃ => ?_
  refine (establishes_writeSection (s := .annotationItem) hg hkeep rfl (fun _ _ => rfl) h₃.1).bind
    fun _ d h₄ => ?_
  refine (establishes_writeSection (s := .annotationSet) hg hkeep rfl (fun _ _ => rfl) h₄.1).bind
    fun _ d h₅ => ?_
  refine (establishes_writeSection (s := .annotationSetRefList) hg hkeep rfl (fun _ _ => rfl)
    h₅.1).bind fun _ d h₆ => ?_
  refine (establishes_writeSection (s := .annotationsDirectory) hg hkeep rfl (fun _ _ => rfl)
    h₆.1).bind fun _ d h₇ => ?_
  refine (establishes_writeSection (s := .typeList) hg hkeep rfl (fun _ _ => rfl) h₇.1).bind
    fun _ d h₈ => ?_
  refine (establishes_writeSection (s := .classData) hg hkeep rfl (fun _ _ => rfl) h₈.1).bind
    fun _ d h₉ => ?_
  refine (establishes_writeSection (s := .stringData) hg hkeep rfl (fun _ _ => rfl) h₉.1).bind
    fun _ d h₁₀ => ?_
  refine (establishes_writeHiddenapi hkeep h₁₀.1).mono fun _ d h₁₁ =>
    ⟨h₁₁.1, fun s hs r hr => ?_, h₁₁.2⟩
  cases s with
  | stringId | typeId | protoId | fieldId | methodId | classDef | callSiteId | methodHandle =>
    cases hs
  | debugInfo => exact h₁.2 r ((hrefs r).mpr ((Graph.Written.congr h).mpr hr))
  | codeItem => exact h₂.2 r hr
  | encodedArray => exact h₃.2 r hr
  | annotationItem => exact h₄.2 r hr
  | annotationSet => exact h₅.2 r hr
  | annotationSetRefList => exact h₆.2 r hr
  | annotationsDirectory => exact h₇.2 r hr
  | typeList => exact h₈.2 r hr
  | classData => exact h₉.2 r hr
  | stringData => exact h₁₀.2 r hr

/-- An image is written only if everything is placed. -/
theorem establishes_writeImage_unplaced (hg : g.Sound) (hkeep : options.computeOffsets = false)
    (hplaced : ¬ g.Placed l) :
    Establishes (g.job options) g.Blames writeImage (fun _ _ => False) ⟨∅, l⟩ := by
  have hoptions : (g.job options).options.computeOffsets = false := hkeep
  unfold writeImage
  rw [establishes_bind, establishes_computesOffsets, hoptions]
  simp only [Bool.false_eq_true, if_false]
  rw [establishes_bind, establishes_changeStream]
  have h : l.SameOffsets (Draft.mk ((∅ : Stream).skip FileHeader.byteSize) l).layout := .refl l
  refine (establishes_writeTables_placed hg hkeep h).bind ?_
  rintro _ d ⟨h, hhead⟩
  rw [establishes_bind, establishes_openData hkeep]
  refine (establishes_writeData_placed hg hkeep h).bind ?_
  rintro _ d ⟨h, hitems, hhidden⟩
  refine (establishes_fillTables_placed hg h).bind fun _ d htail => absurd ?_ hplaced
  refine ⟨fun s hs hcount => ?_, hitems, hhidden⟩
  have hmem : s ∈ [Section.typeId, .fieldId, .methodId, .methodHandle] ∨
      s ∈ [Section.stringId, .protoId, .classDef, .callSiteId] := by
    cases s <;> simp_all [Section.rowSize?]
  rcases hmem with hmem | hmem
  · exact hhead s hmem hcount
  · exact htail s hmem hcount

end Writer

namespace Graph

variable {g : Graph} {options : WriteOptions} {l : Layout}

/-- A graph is not written under a layout that does not place everything: writing fails, and it
says that an offset is missing unless an entity cannot be encoded for another reason. -/
theorem write_unplaced (hg : g.Sound) (hkeep : options.computeOffsets = false)
    (hplaced : ¬ g.Placed l) :
    ∃ e, (g.write options l).1 = .error e ∧ (g.Encodable → e.LacksOffset) := by
  have hwrite : Writer.Establishes ⟨g, options, g.liveCode⟩ _ _ _ _ :=
    Writer.establishes_writeImage_unplaced hg hkeep hplaced
  unfold write
  cases hrun : Writer.writeImage ⟨g, options, g.liveCode⟩ ⟨∅, l⟩ with
  | ok image d => exact (hwrite.of_ok hrun).elim
  | error e d => exact ⟨e, rfl, hwrite.of_error hrun⟩

/-! ## A table that has grown -/

/-- A graph in which so many types have one descriptor. -/
def types (n : Nat) : Graph :=
  { empty with
    stringDatas := .ofItems [⟨3, #[0x4C, 0x41, 0x3B]⟩]
    stringIds := .ofItems [⟨⟨0⟩⟩]
    typeIds := .ofItems (List.replicate n ⟨⟨0⟩⟩) }

theorem types_sound {n : Nat} (hn : n < 2 ^ 32) : (types n).Sound where
  coherent s := by
    cases s with
    | stringData | stringId => exact Collection.coherent_ofItems (by decide)
    | typeId => exact Collection.coherent_ofItems (by simpa using hn)
    | _ => exact Collection.coherent_empty
  refs s r x h := by
    have hmem := Array.mem_of_getElem? h
    cases s with
    | stringData => trivial
    | stringId | typeId =>
      simp [types, entities] at hmem
      simp [Section.AllRefs, Has, count, types, entities, Ref.pos, Collection.size, hmem]
    | _ => simp [types, entities, empty, withMagic] at hmem

theorem types_encodable (n : Nat) : (types n).Encodable where
  entities s r x l e h he := by
    have hmem := Array.mem_of_getElem? h
    cases s with
    | stringData => cases he
    | stringId =>
      simp only [Section.encode, StringId.toRow, Except.bind_eq_error_iff, Except.pure_ne_error,
        and_false, exists_false, or_false] at he
      unfold Layout.offsetOf at he
      split at he
      · cases he
      · cases he
        exact ⟨_, rfl⟩
    | typeId => cases he
    | _ => simp [types, entities, empty, withMagic] at hmem
  sizes s r x l item h hitem := by
    have hmem := Array.mem_of_getElem? h
    cases s with
    | stringData =>
      simp [types, entities] at hmem
      cases hitem
      subst hmem
      decide
    | stringId =>
      rw [Section.length_of_encode_row (n := 4) rfl hitem]
      decide
    | typeId =>
      rw [Section.length_of_encode_row (n := 4) rfl hitem]
      decide
    | _ => simp [types, entities, empty, withMagic] at hmem
  hiddenapi flags h := by cases h

/-- A graph with one type is not written under a layout that places nothing. -/
theorem write_unplaced_types : (types 1).Sound ∧ ¬ (types 1).Placed .empty ∧
    ∃ e, ((types 1).write .preserving .empty).1 = .error e ∧ e.LacksOffset := by
  have hplaced : ¬ (types 1).Placed .empty := by
    intro h
    obtain ⟨o, ho⟩ := h.tables .typeId (by decide) (by decide)
    cases ho
  have hsound := types_sound (n := 1) (by decide)
  have hwrite : ∃ e, ((types 1).write .preserving .empty).1 = .error e ∧ _ :=
    write_unplaced hsound rfl hplaced
  obtain ⟨e, he, hlacks⟩ := hwrite
  exact ⟨hsound, hplaced, e, he, hlacks (types_encodable 1)⟩

/-- Where the graph with one type lies when it has been laid out anew. -/
def oneTypeLayout : Layout :=
  ((types 1).write .relayout .empty).2

/-- A second type is written back although it has no offset, over what lies behind the first. -/
theorem write_grown : (types 2).Sound ∧ (types 2).Has .typeId ⟨1⟩ ∧
    ¬ oneTypeLayout.Assigned .typeId ⟨1⟩ ∧
      ∃ image l, (types 2).write .preserving oneTypeLayout = (.ok image, l) := by
  refine ⟨types_sound (by decide), by decide, ?_, ?_⟩
  · have hfree : (oneTypeLayout.place (⟨1⟩ : Ref .typeId)).offset = none := by
      simp only [oneTypeLayout, write, Writer.writeImage, Writer.closeImage, Writer.stampHeader,
        FileHeader.store, Stream.contents, Bytes.overlay_eq_laid, Writer.writeMapList, mapListOf,
        MapEntry.mergeSort_le]
      decide +kernel
    rintro ⟨o, ho⟩
    rw [hfree] at ho
    cases ho
  · refine exists_of_isOk ?_
    simp only [oneTypeLayout, write, Writer.writeImage, Writer.closeImage, Writer.stampHeader,
      FileHeader.store, Stream.contents, Bytes.overlay_eq_laid, Writer.writeMapList, mapListOf,
      MapEntry.mergeSort_le]
    decide +kernel

end Graph

end DexGraph
