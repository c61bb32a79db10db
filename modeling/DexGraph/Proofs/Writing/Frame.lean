import DexGraph.Proofs.Writing.Independence
import DexGraph.Proofs.Writing.Unplaced

/-!
# What writing leaves alone

A writer changes the layout and nothing else, and of the layout only what belongs to it: whether
writing succeeds or fails and however far it has come, `Layout.Frame job l l'` holds between the
layout before and the one afterwards. A write that keeps offsets changes none of them, and in any
case the size of the hidden-API section stays one that makes the section come out the same. So what
was written before, successfully or not, does not matter for a later fresh layout
(`Dex.write_frame`).
-/

namespace DexGraph

/-! ## The frame -/

/-- No offset that was assigned has changed, no entity has got one, and no header field that
describes the image has changed. -/
structure Layout.Untouched (l l' : Layout) : Prop extends l.SameOffsets l' where
  named : ∀ s o, l.sectionOffset s = some o → l'.sectionOffset s = some o
  fields : ∀ f : HeaderField, f.value l' = f.value l

/-- What has not changed from `l` to `l'` while a job was done. -/
structure Layout.Frame (job : Job) (l l' : Layout) : Prop where
  headerSize : l'.headerSize = l.headerSize
  hiddenapiItem : ∀ flags, job.graph.hiddenapi = some flags →
    flags.encode l'.hiddenapi.size = flags.encode l.hiddenapi.size
  untouched : job.options.computeOffsets = false → l.Untouched l'

namespace Layout

variable {job : Job} {l l' : Layout} {s : Section}

theorem Untouched.refl (l : Layout) : l.Untouched l :=
  ⟨.refl l, fun _ _ h => h, fun _ => rfl⟩

theorem Untouched.setPlace (h : l.Untouched l') {r : Ref s} {p : Place}
    (hp : (l'.place r).offset = p.offset) : l.Untouched (l'.setPlace r p) where
  toSameOffsets := h.toSameOffsets.setPlace hp
  named t o ho := by
    rw [sectionOffset_setPlace]
    exact h.named t o ho
  fields f := (f.value_modifyPlace l' r _).trans (h.fields f)

theorem Untouched.setSize (h : l.Untouched l') (r : Ref s) (size : UInt32) :
    l.Untouched (l'.setSize r size) where
  toSameOffsets := h.toSameOffsets.setSize r size
  named t o ho := by
    rw [sectionOffset_setSize]
    exact h.named t o ho
  fields f := (f.value_modifyPlace l' r _).trans (h.fields f)

/-- A section of data items gets an offset only if it has none. -/
theorem Untouched.setSectionOffset (h : l.Untouched l') (hs : s.rowSize? = none)
    (hnone : l'.sectionOffset s = none) (o : Option UInt32) :
    l.Untouched (l'.setSectionOffset s o) where
  toSameOffsets := h.toSameOffsets.setSectionOffset hs o
  named t o' ho := by
    have hkept := h.named t o' ho
    have hst : s ≠ t := by
      rintro rfl
      rw [hnone] at hkept
      cases hkept
    rwa [sectionOffset_setSectionOffset, if_neg hst]
  fields f := (f.value_setSectionOffset l' o).trans (h.fields f)

theorem Frame.refl (job : Job) (l : Layout) : l.Frame job l :=
  ⟨rfl, fun _ _ => rfl, fun _ => .refl l⟩

/-- When the layout is computed it may be changed in any way that leaves the size of the header and
the one of the hidden-API section alone. -/
theorem Frame.computed (h : l.Frame job l') (hcomputes : job.options.computeOffsets = true)
    {l'' : Layout} (hheader : l''.headerSize = l'.headerSize)
    (hsize : l''.hiddenapi.size = l'.hiddenapi.size) : l.Frame job l'' where
  headerSize := hheader.trans h.headerSize
  hiddenapiItem := hsize ▸ h.hiddenapiItem
  untouched hkeeps := by
    rw [hcomputes] at hkeeps
    cases hkeeps

/-- A data item may be given the place that it has. -/
theorem Frame.setPlace (h : l.Frame job l') {r : Ref s} {p : Place}
    (hp : job.options.computeOffsets = false → (l'.place r).offset = p.offset) :
    l.Frame job (l'.setPlace r p) :=
  ⟨h.headerSize, h.hiddenapiItem, fun hkeeps => (h.untouched hkeeps).setPlace (hp hkeeps)⟩

theorem Frame.setSize (h : l.Frame job l') (r : Ref s) (size : UInt32) :
    l.Frame job (l'.setSize r size) :=
  ⟨h.headerSize, h.hiddenapiItem, fun hkeeps => (h.untouched hkeeps).setSize r size⟩

theorem Frame.setSectionOffset (h : l.Frame job l') (hs : s.rowSize? = none)
    (hnone : job.options.computeOffsets = false → l'.sectionOffset s = none) (o : Option UInt32) :
    l.Frame job (l'.setSectionOffset s o) :=
  ⟨h.headerSize, h.hiddenapiItem, fun hkeeps =>
    (h.untouched hkeeps).setSectionOffset hs (hnone hkeeps) o⟩

end Layout

/-! ## Steps that may fail -/

namespace Writer

variable {α β : Type} {job : Job} {F : Layout → Prop} {d : Draft}

/-- Started from `d`, the step either succeeds and then `Q` holds, or fails with a layout of which
`F` holds. -/
def Leaves (job : Job) (F : Layout → Prop) (w : Writer α) (Q : α → Draft → Prop) (d : Draft) :
    Prop :=
  match w job d with
  | .ok a d' => Q a d'
  | .error _ d' => F d'.layout

section Rules

variable {Q : α → Draft → Prop}

theorem Leaves.mono {w : Writer α} {R : α → Draft → Prop} (h : Leaves job F w R d)
    (hR : ∀ a d', R a d' → Q a d') : Leaves job F w Q d := by
  unfold Leaves at h ⊢
  cases hw : w job d with
  | ok a d' =>
    rw [hw] at h
    exact hR a d' h
  | error e d' => rwa [hw] at h

theorem leaves_bind {w : Writer β} {f : β → Writer α} :
    Leaves job F (w >>= f) Q d ↔ Leaves job F w (fun b => Leaves job F (f b) Q) d := by
  unfold Leaves
  rw [run_bind]
  cases w job d <;> rfl

theorem Leaves.bind {w : Writer β} {f : β → Writer α} {R : β → Draft → Prop}
    (h : Leaves job F w R d) (hf : ∀ b d', R b d' → Leaves job F (f b) Q d') :
    Leaves job F (w >>= f) Q d :=
  leaves_bind.mpr (h.mono hf)

theorem leaves_pure {a : α} : Leaves job F (pure a) Q d ↔ Q a d :=
  Iff.rfl

theorem leaves_get {Q : Draft → Draft → Prop} : Leaves job F get Q d ↔ Q d d :=
  Iff.rfl

theorem leaves_ofExcept {x : Except Error α} :
    Leaves job F (ofExcept x) Q d ↔
      (∀ a, x = .ok a → Q a d) ∧ ((∃ e, x = .error e) → F d.layout) := by
  cases x with
  | ok a =>
    change Q a d ↔ _
    simp
  | error e =>
    change F d.layout ↔ _
    simp

theorem leaves_changeStream {Q : Unit → Draft → Prop} {f : Stream → Stream} :
    Leaves job F (changeStream f) Q d ↔ Q () { d with stream := f d.stream } :=
  Iff.rfl

theorem leaves_changeLayout {Q : Unit → Draft → Prop} {f : Layout → Layout} :
    Leaves job F (changeLayout f) Q d ↔ Q () { d with layout := f d.layout } :=
  Iff.rfl

theorem leaves_tell {Q : Nat → Draft → Prop} :
    Leaves job F tell Q d ↔ Q d.stream.position d :=
  Iff.rfl

theorem leaves_computesOffsets {Q : Bool → Draft → Prop} :
    Leaves job F computesOffsets Q d ↔ Q job.options.computeOffsets d :=
  Iff.rfl

theorem leaves_ite {c : Prop} [Decidable c] {w w' : Writer α} :
    Leaves job F (if c then w else w') Q d ↔
      (c → Leaves job F w Q d) ∧ (¬ c → Leaves job F w' Q d) := by
  split <;> simp_all

end Rules

/-- The rule for loops: every turn keeps `I`. -/
theorem leaves_foldlM {f : β → α → Writer β} {I : Draft → Prop} {xs : Array α}
    (hstep : ∀ b x d, I d → Leaves job F (f b x) (fun _ => I) d) {b : β} (h : I d) :
    Leaves job F (xs.foldlM f b) (fun _ => I) d := by
  rw [← Array.foldlM_toList]
  induction xs.toList generalizing b d with
  | nil => exact h
  | cons x rest ih =>
    rw [List.foldlM_cons]
    exact (hstep b x d h).bind fun _ _ => ih

/-! ## Every step keeps the frame -/

/-- The step, started from a layout that is framed by `l`, leaves one that is, even if it fails. -/
def Framed (job : Job) (w : Writer α) : Prop :=
  ∀ (l : Layout) (d : Draft), l.Frame job d.layout →
    Leaves job (l.Frame job) w (fun _ d' => l.Frame job d'.layout) d

theorem framed_pure {a : α} : Framed job (pure a) :=
  fun _ _ h => h

theorem framed_ofExcept (x : Except Error α) : Framed job (ofExcept x) :=
  fun _ _ h => leaves_ofExcept.mpr ⟨fun _ _ => h, fun _ => h⟩

theorem framed_throw (e : Error) : Framed job (throw e : Writer α) :=
  fun _ _ h => h

theorem framed_changeStream (f : Stream → Stream) : Framed job (changeStream f) :=
  fun _ _ h => h

theorem Framed.bind {w : Writer β} {f : β → Writer α} (hw : Framed job w)
    (hf : ∀ b, Framed job (f b)) : Framed job (w >>= f) :=
  fun l d h => (hw l d h).bind fun b d' => hf b l d'

theorem framed_tell : Framed job tell :=
  fun _ _ h => h

theorem framed_get : Framed job get :=
  fun _ _ h => h

theorem framed_read_bind {f : Job → Writer α} (hf : Framed job (f job)) :
    Framed job (read >>= f) :=
  hf

theorem framed_computesOffsets_bind {f : Bool → Writer α}
    (hf : Framed job (f job.options.computeOffsets)) : Framed job (computesOffsets >>= f) :=
  hf

theorem Framed.ite {c : Prop} [Decidable c] {w w' : Writer α} (h : c → Framed job w)
    (h' : ¬ c → Framed job w') : Framed job (if c then w else w') := by
  split
  · exact h ‹_›
  · exact h' ‹_›

theorem framed_foldlM {f : β → α → Writer β} (hf : ∀ b x, Framed job (f b x)) (xs : Array α)
    (b : β) : Framed job (xs.foldlM f b) :=
  fun l _ => leaves_foldlM fun b x => hf b x l

/-- When the layout is computed it may be changed in any way that leaves the size of the header and
the one of the hidden-API section alone. -/
theorem framed_changeLayout (hcomputes : job.options.computeOffsets = true) {f : Layout → Layout}
    (hf : ∀ l, (f l).headerSize = l.headerSize ∧ (f l).hiddenapi.size = l.hiddenapi.size) :
    Framed job (changeLayout f) :=
  fun _ d h => leaves_changeLayout.mpr (h.computed hcomputes (hf d.layout).1 (hf d.layout).2)

/-- A field of the header is settled when the layout is computed. -/
theorem framed_settle (hcomputes : job.options.computeOffsets = true) (f : HeaderField)
    (v : UInt32) : Framed job (changeLayout (f.set v)) :=
  framed_changeLayout hcomputes fun l => by cases f <;> exact ⟨rfl, rfl⟩

section Steps

variable {s : Section}

/-- A place that is kept is the one that was recorded, and the output goes on there. -/
theorem leaves_place {o : Option UInt32} {k : Nat} {subject : Unplaced} (h : F d.layout) :
    Leaves job F (place o k subject) (fun start d' => d'.layout = d.layout ∧
      d'.stream.position = start.toNat ∧
      (job.options.computeOffsets = false → o = some start)) d := by
  unfold place
  simp only [leaves_bind, leaves_computesOffsets, leaves_ite, leaves_changeStream, leaves_tell,
    leaves_ofExcept, toWord_eq_ok_iff]
  constructor
  · intro hcomputes
    refine ⟨fun start hstart => ⟨trivial, hstart, fun hkeeps => ?_⟩, fun _ => h⟩
    rw [hcomputes] at hkeeps
    cases hkeeps
  · intro hkeeps
    cases o with
    | none => exact h
    | some o => exact ⟨rfl, rfl, fun _ => rfl⟩

/-! ### Tables -/

theorem framed_reserveTable (s : Section) : Framed job (reserveTable s) := by
  unfold reserveTable
  refine framed_read_bind (framed_computesOffsets_bind (.ite (fun hcond => ?_) fun _ => framed_pure))
  have hcomputes : job.options.computeOffsets = true := (Bool.and_eq_true_iff.mp hcond).1
  refine (framed_changeStream _).bind fun _ => framed_tell.bind fun start =>
    (framed_changeLayout hcomputes fun l => ?_).bind fun _ => framed_changeStream _
  generalize job.graph.count s = count
  induction count with
  | zero => exact ⟨rfl, rfl⟩
  | succ count ih =>
    rw [Nat.fold_succ]
    exact ih

theorem framed_fillTable {row : Type} [Row row] (toRow : Layout → s.Content → Except Error row) :
    Framed job (fillTable s toRow) := by
  unfold fillTable
  refine framed_read_bind (.ite (fun _ => framed_pure) fun _ => framed_get.bind fun d => ?_)
  cases d.layout.sectionOffset s with
  | none => exact framed_throw _
  | some o =>
    exact (framed_changeStream _).bind fun _ => framed_foldlM (fun _ x => framed_get.bind fun d =>
      (framed_ofExcept _).bind fun _ => framed_changeStream _) _ _

theorem framed_writeTable {row : Type} [Row row] (toRow : Layout → s.Content → Except Error row) :
    Framed job (writeTable s toRow) :=
  (framed_reserveTable s).bind fun _ => framed_fillTable toRow

theorem framed_writeTables : Framed job writeTables :=
  (framed_reserveTable _).bind fun _ => (framed_writeTable _).bind fun _ =>
    (framed_reserveTable _).bind fun _ => (framed_writeTable _).bind fun _ =>
    (framed_writeTable _).bind fun _ => (framed_reserveTable _).bind fun _ =>
    (framed_reserveTable _).bind fun _ => framed_writeTable _

theorem framed_fillTables : Framed job fillTables :=
  (framed_fillTable _).bind fun _ => (framed_fillTable _).bind fun _ =>
    (framed_fillTable _).bind fun _ => framed_fillTable _

/-! ### Data items -/

theorem framed_writeItem (encode : Layout → s.Content → Except Error Stream) (first : UInt32)
    (r : Ref s) : Framed job (writeItem s encode first r) := by
  unfold writeItem
  refine framed_read_bind ?_
  cases job.graph.get? r with
  | none => exact framed_pure
  | some x =>
    intro l d h
    rw [leaves_bind, leaves_get]
    refine (leaves_place h).bind ?_
    rintro start d₁ ⟨hl, -, hstart⟩
    have h₁ : l.Frame job d₁.layout := hl ▸ h
    simp only [leaves_bind, leaves_get, leaves_ofExcept, leaves_changeStream, leaves_tell,
      leaves_changeLayout, leaves_pure]
    refine ⟨fun item _ => ⟨fun size _ => h₁.setPlace fun hkeeps => ?_, fun _ => h₁⟩, fun _ => h₁⟩
    rw [hl, hstart hkeeps]

/-- A section gets an offset only if it has none or the layout is computed. -/
theorem framed_nameSection (hs : s.rowSize? = none) (first : UInt32) :
    Framed job (do
      if (← computesOffsets) || ((← get).layout.sectionOffset s).isNone then
        changeLayout fun l => l.setSectionOffset s (some first)) := by
  refine framed_computesOffsets_bind fun l d h => ?_
  rw [leaves_bind, leaves_get, leaves_ite, leaves_changeLayout, leaves_pure]
  refine ⟨fun hcond => h.setSectionOffset hs (fun hkeeps => ?_) _, fun _ => h⟩
  rw [hkeeps, Bool.false_or] at hcond
  exact Option.isNone_iff_eq_none.mp hcond

theorem framed_writeItems (hs : s.rowSize? = none) (refs : Array (Ref s))
    (encode : Layout → s.Content → Except Error Stream) :
    Framed job (writeItems s refs encode) := by
  unfold writeItems
  exact .ite (fun _ => framed_pure) fun _ =>
    (framed_foldlM (framed_writeItem encode) _ _).bind fun first => framed_nameSection hs first

theorem framed_writeSection (hs : s.rowSize? = none)
    (encode : Layout → s.Content → Except Error Stream) : Framed job (writeSection s encode) :=
  framed_read_bind (framed_writeItems hs _ encode)

/-! ### Bodies -/

theorem framed_codeRefs : Framed job codeRefs :=
  framed_read_bind (framed_get.bind fun _ => framed_pure)

theorem framed_debugInfoRefs : Framed job debugInfoRefs :=
  framed_read_bind (framed_codeRefs.bind fun _ => framed_get.bind fun _ => framed_pure)

theorem framed_reserveBody (hcomputes : job.options.computeOffsets = true) (first : Option UInt32)
    (r : Ref .codeItem) : Framed job (reserveBody first r) := by
  unfold reserveBody
  refine framed_read_bind ?_
  cases job.graph.get? r with
  | none => exact framed_pure
  | some code =>
    refine (framed_ofExcept _).bind fun item => Framed.bind (fun l d h => ?_) fun start =>
      (framed_changeStream _).bind fun _ => (framed_changeLayout hcomputes fun _ => ?_).bind
      fun _ => (framed_ofExcept _).bind fun size => (framed_changeLayout hcomputes fun _ => ?_).bind
      fun _ => framed_pure
    · exact (leaves_place h).mono fun _ _ hplace => hplace.1 ▸ h
    · exact ⟨rfl, rfl⟩
    · exact ⟨rfl, rfl⟩

theorem framed_reserveCode : Framed job reserveCode := by
  unfold reserveCode
  refine framed_computesOffsets_bind (.ite (fun hcomputes => ?_) fun _ => framed_pure)
  refine framed_codeRefs.bind fun refs =>
    (framed_foldlM (framed_reserveBody hcomputes) _ _).bind fun first => ?_
  cases first with
  | none => exact framed_pure
  | some first => exact framed_changeLayout hcomputes fun _ => ⟨rfl, rfl⟩

theorem framed_writeBody (first : UInt32) (r : Ref .codeItem) :
    Framed job (writeBody first r) := by
  unfold writeBody
  refine framed_read_bind ?_
  cases job.graph.get? r with
  | none => exact framed_pure
  | some code =>
    refine framed_get.bind fun d => (framed_ofExcept _).bind fun o =>
      (framed_ofExcept _).bind fun _ => (framed_ofExcept _).bind fun item =>
      (framed_changeStream _).bind fun _ => framed_tell.bind fun _ =>
      (framed_ofExcept _).bind fun size => Framed.bind (fun l d h => ?_) fun _ => framed_pure
    exact h.setSize r size

theorem framed_writeCode : Framed job writeCode := by
  unfold writeCode
  refine framed_codeRefs.bind fun refs => framed_tell.bind fun resume =>
    (framed_foldlM framed_writeBody _ _).bind fun first l d h => ?_
  have hresume : Framed job (do
      if ← computesOffsets then changeStream fun stream => stream.seek resume) :=
    framed_computesOffsets_bind (.ite (fun _ => framed_changeStream _) fun _ => framed_pure)
  rw [leaves_bind, leaves_get, leaves_ite]
  refine ⟨fun hcond => ?_, fun _ => hresume l d h⟩
  have hnone : d.layout.sectionOffset .codeItem = none :=
    Option.isNone_iff_eq_none.mp (Bool.and_eq_true_iff.mp hcond).2
  exact leaves_bind.mpr (hresume l _ (h.setSectionOffset rfl (fun _ => hnone) _))

/-! ### The data section -/

theorem framed_openData : Framed job openData := by
  unfold openData
  refine framed_computesOffsets_bind (.ite (fun hcomputes => ?_) fun _ => framed_pure)
  exact (framed_changeStream _).bind fun _ => framed_tell.bind fun _ =>
    (framed_ofExcept _).bind fun _ => framed_changeLayout hcomputes fun _ => ⟨rfl, rfl⟩

/-- The hidden-API section is given the place that it has, and a size for which it comes out the
same. -/
theorem framed_writeHiddenapi : Framed job writeHiddenapi := by
  unfold writeHiddenapi
  refine framed_read_bind ?_
  cases hflags : job.graph.hiddenapi with
  | none => exact framed_pure
  | some flags =>
    intro l d h
    rw [leaves_bind, leaves_get]
    refine (leaves_place h).bind ?_
    rintro start d₁ ⟨hl, hpos, hstart⟩
    have h₁ : l.Frame job d₁.layout := hl ▸ h
    simp only [leaves_bind, leaves_ofExcept, leaves_changeStream, leaves_tell,
      leaves_changeLayout]
    refine ⟨fun item hitem => ⟨fun size hsize => ?_, fun _ => h₁⟩, fun _ => h₁⟩
    rw [Stream.position_append, hpos, Nat.add_sub_cancel_left,
      (HiddenApi.tight_of_encode hitem).position_eq, toWord_eq_ok_iff] at hsize
    have hsame : flags.encode size = .ok item := by
      have hagain := HiddenApi.encode_length hitem
      rwa [hsize, Nat.toUInt32_eq, UInt32.ofNat_toNat] at hagain
    refine ⟨h₁.headerSize, fun flags' hflags' => ?_, fun hkeeps => ?_⟩
    · cases hflags.symm.trans hflags'
      rw [← h.hiddenapiItem flags hflags, hsame, hitem]
    · have hu := h₁.untouched hkeeps
      refine ⟨⟨hu.place, hu.tables, ?_⟩, hu.named, fun f => ?_⟩
      · rw [← hu.hiddenapi, hl, hstart hkeeps]
      · have := hu.fields f
        cases f <;> exact this

theorem framed_writeData : Framed job writeData :=
  framed_reserveCode.bind fun _ => framed_debugInfoRefs.bind fun _ =>
    (framed_writeItems rfl _ _).bind fun _ => framed_writeCode.bind fun _ =>
    (framed_writeSection rfl _).bind fun _ => (framed_writeSection rfl _).bind fun _ =>
    (framed_writeSection rfl _).bind fun _ => (framed_writeSection rfl _).bind fun _ =>
    (framed_writeSection rfl _).bind fun _ => (framed_writeSection rfl _).bind fun _ =>
    (framed_writeSection rfl _).bind fun _ => (framed_writeSection rfl _).bind fun _ =>
    framed_writeHiddenapi

/-! ### The image -/

theorem framed_writeMapList : Framed job writeMapList := by
  unfold writeMapList
  have hclose : Framed job (do
      if ← computesOffsets then
        changeStream fun stream => stream.alignTo dataAlignment
        let stop ← ofExcept (toWord (← tell))
        changeLayout fun l => { l with dataSize := stop - l.dataOffset }) := by
    refine framed_computesOffsets_bind (.ite (fun hcomputes => ?_) fun _ => framed_pure)
    exact (framed_changeStream _).bind fun _ => framed_tell.bind fun _ =>
      (framed_ofExcept _).bind fun _ => framed_changeLayout hcomputes fun _ => ⟨rfl, rfl⟩
  have hlist : Framed job (do
      let list ← ofExcept (mapListOf (← read).graph (← get).layout)
      let bytes ← ofExcept list.encode
      changeStream fun stream => stream.write bytes
      if ← computesOffsets then
        changeStream fun stream => stream.alignTo dataAlignment
        let stop ← ofExcept (toWord (← tell))
        changeLayout fun l => { l with dataSize := stop - l.dataOffset }) :=
    framed_read_bind (framed_get.bind fun _ => (framed_ofExcept _).bind fun _ =>
      (framed_ofExcept _).bind fun _ => (framed_changeStream _).bind fun _ => hclose)
  refine framed_computesOffsets_bind (.ite (fun hcomputes => ?_) fun _ => ?_)
  · exact (framed_changeStream _).bind fun _ => framed_tell.bind fun _ =>
      (framed_ofExcept _).bind fun o => (framed_settle hcomputes .mapOffset o).bind fun _ => hlist
  · exact framed_get.bind fun _ => (framed_changeStream _).bind fun _ => hlist

theorem framed_writeLinkData : Framed job writeLinkData := by
  unfold writeLinkData
  refine framed_read_bind (.ite (fun _ => ?_) fun _ => ?_)
  · exact framed_computesOffsets_bind (.ite
      (fun hcomputes => (framed_settle hcomputes .linkOffset 0).bind fun _ => framed_pure)
      fun _ => framed_pure)
  · refine framed_computesOffsets_bind (.ite (fun hcomputes => ?_) fun _ => ?_)
    · exact framed_tell.bind fun _ => (framed_ofExcept _).bind fun o =>
        (framed_settle hcomputes .linkOffset o).bind fun _ => framed_changeStream _
    · exact framed_get.bind fun _ => (framed_changeStream _).bind fun _ => framed_changeStream _

theorem framed_closeImage : Framed job closeImage := by
  unfold closeImage
  refine framed_get.bind fun _ => framed_computesOffsets_bind (.ite (fun hcomputes => ?_) fun _ => ?_)
  · exact (framed_ofExcept _).bind fun size =>
      (framed_settle hcomputes .fileSize size).bind fun _ => framed_get.bind fun _ => framed_pure
  · exact framed_get.bind fun _ => .ite (fun _ => (framed_throw _).bind fun _ =>
      framed_get.bind fun _ => framed_pure) fun _ => framed_get.bind fun _ => framed_pure

theorem framed_stampHeader (image : Bytes) : Framed job (stampHeader image) := by
  unfold stampHeader
  refine framed_read_bind (framed_read_bind (framed_get.bind fun _ =>
    (framed_ofExcept _).bind fun _ => (framed_ofExcept _).bind fun _ =>
    Framed.bind (fun l d h => ?_) fun _ => framed_pure))
  refine ⟨h.headerSize, h.hiddenapiItem, fun hkeeps => ?_⟩
  have hu := h.untouched hkeeps
  refine ⟨⟨hu.place, hu.tables, hu.hiddenapi⟩, hu.named, fun f => ?_⟩
  have := hu.fields f
  cases f <;> exact this

/-- A job keeps the frame from its first step to its last, or to the one that fails. -/
theorem framed_writeImage : Framed job writeImage := by
  unfold writeImage
  have hall : Framed job (do
      changeStream fun stream => stream.skip FileHeader.byteSize
      writeTables; openData; writeData; fillTables; writeMapList; writeLinkData
      let image ← closeImage
      stampHeader image) :=
    (framed_changeStream _).bind fun _ => framed_writeTables.bind fun _ =>
      framed_openData.bind fun _ => framed_writeData.bind fun _ => framed_fillTables.bind fun _ =>
      framed_writeMapList.bind fun _ => framed_writeLinkData.bind fun _ =>
      framed_closeImage.bind framed_stampHeader
  refine framed_computesOffsets_bind (.ite (fun hcomputes => ?_) fun _ => hall)
  refine Framed.bind (framed_changeLayout hcomputes ?_) fun _ => hall
  exact fun _ => ⟨rfl, rfl⟩

end Steps

end Writer

/-- Whatever comes of writing a graph, the layout keeps its frame. -/
theorem Graph.frame_write (g : Graph) (options : WriteOptions) (l : Layout) :
    l.Frame ⟨g, options, g.liveCode⟩ (g.write options l).2 := by
  have h : Writer.Leaves ⟨g, options, g.liveCode⟩ _ _ _ _ :=
    Writer.framed_writeImage l ⟨∅, l⟩ (.refl _ l)
  unfold Writer.Leaves at h
  unfold write
  cases hrun : Writer.writeImage ⟨g, options, g.liveCode⟩ ⟨∅, l⟩ <;> rw [hrun] at h <;> exact h

namespace Dex

/-- The file as it is left by writes, one after the other, whatever comes of them. -/
def afterWrites (d : Dex) (earlier : List WriteOptions) : Dex :=
  earlier.foldl (fun d options => (d.write options).2) d

/-- Writing leaves the contents and the cross references of a file alone, even if it fails, and of
its layout whatever does not describe the image. A write that keeps offsets leaves these alone as
well. So a fresh layout comes out the same however often the file was written before. -/
theorem write_frame (d : Dex) :
    (∀ options, (d.write options).2.graph = d.graph ∧
      (d.write options).2.references = d.references ∧
      (d.write options).2.layout.headerSize = d.layout.headerSize ∧
      (options.computeOffsets = false → d.layout.Untouched (d.write options).2.layout)) ∧
    ∀ earlier, ((d.afterWrites earlier).write .relayout).1 = (d.write .relayout).1 := by
  have hframe (d : Dex) (options : WriteOptions) :
      d.layout.Frame ⟨d.graph, options, d.graph.liveCode⟩ (d.write options).2.layout :=
    d.graph.frame_write options d.layout
  refine ⟨fun options => ⟨rfl, rfl, (hframe d options).headerSize, (hframe d options).untouched⟩,
    fun earlier => ?_⟩
  unfold afterWrites
  induction earlier generalizing d with
  | nil => rfl
  | cons options rest ih =>
    rw [List.foldl_cons, ih]
    exact Graph.write_relayout_congr (hframe d options).hiddenapiItem

end Dex

end DexGraph
