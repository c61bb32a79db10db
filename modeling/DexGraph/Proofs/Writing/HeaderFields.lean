import DexGraph.Proofs.Format.Rows
import DexGraph.Proofs.Writing.Independence
import DexGraph.Proofs.Writing.Relayout
import DexGraph.Proofs.Writing.Stamp

/-!
# What the header of a written image says

The header is made last, from the graph and from the layout as it has come out, and then the
signature and the checksum are stored over it. In whichever way a graph is written, the image that
results is as long as its layout says, and the header that is read from it describes the graph and
the layout (`Graph.write_header`). The checksum and the signature that are not brought up to date
are those that the layout had before: no step in between looks at them.
-/

namespace DexGraph

/-! ## Steps that carry the stamp along -/

/-- The stamp has not changed, and every section that had an offset has one. -/
structure Layout.Carries (l l' : Layout) : Prop where
  checksum : l'.checksum = l.checksum
  signature : l'.signature = l.signature
  named : ∀ s, (l.sectionOffset s).isSome → (l'.sectionOffset s).isSome

namespace Layout

variable {s : Section} {l l' l'' : Layout}

theorem Carries.refl (l : Layout) : l.Carries l :=
  ⟨rfl, rfl, fun _ h => h⟩

theorem Carries.trans (h : l.Carries l') (h' : l'.Carries l'') : l.Carries l'' :=
  ⟨h'.checksum.trans h.checksum, h'.signature.trans h.signature,
    fun s hs => h'.named s (h.named s hs)⟩

theorem carries_modifyPlace (l : Layout) (r : Ref s) (f : Place → Place) :
    l.Carries (l.modifyPlace r f) :=
  ⟨rfl, rfl, fun t ht => by rwa [sectionOffset_modifyPlace]⟩

theorem carries_setSectionOffset (l : Layout) (s : Section) (o : UInt32) :
    l.Carries (l.setSectionOffset s (some o)) where
  checksum := rfl
  signature := rfl
  named t ht := by
    rw [sectionOffset_setSectionOffset]
    split
    · rfl
    · exact ht

theorem carries_set (f : HeaderField) (v : UInt32) (l : Layout) : l.Carries (f.set v l) := by
  cases f <;> exact ⟨rfl, rfl, fun _ h => h⟩

end Layout

namespace Writer

variable {α β : Type} {job : Job} {s : Section}

/-- Wherever it starts from, the step carries the stamp along. -/
def Carrying (job : Job) (w : Writer α) : Prop :=
  ∀ d, Establishes job (fun _ => True) w (fun _ d' => d.layout.Carries d'.layout) d

theorem carrying_pure {a : α} : Carrying job (pure a) :=
  fun d => .refl d.layout

theorem carrying_ofExcept (x : Except Error α) : Carrying job (ofExcept x) :=
  fun d => establishes_ofExcept.mpr ⟨fun _ _ => .refl d.layout, fun _ _ => trivial⟩

theorem carrying_throw (e : Error) : Carrying job (throw e : Writer α) :=
  fun _ => trivial

theorem carrying_changeStream (f : Stream → Stream) : Carrying job (changeStream f) :=
  fun d => .refl d.layout

theorem carrying_tell : Carrying job tell :=
  fun d => .refl d.layout

theorem carrying_get : Carrying job get :=
  fun d => .refl d.layout

theorem carrying_read : Carrying job read :=
  fun d => .refl d.layout

theorem carrying_computesOffsets : Carrying job computesOffsets :=
  fun d => .refl d.layout

theorem carrying_changeLayout {f : Layout → Layout} (hf : ∀ l : Layout, l.Carries (f l)) :
    Carrying job (changeLayout f) :=
  fun d => hf d.layout

theorem Carrying.bind {w : Writer β} {f : β → Writer α} (hw : Carrying job w)
    (hf : ∀ b, Carrying job (f b)) : Carrying job (w >>= f) :=
  fun d => (hw d).bind fun b d' h => (hf b d').mono fun _ _ => h.trans

theorem Carrying.ite {c : Prop} [Decidable c] {w w' : Writer α} (h : Carrying job w)
    (h' : Carrying job w') : Carrying job (if c then w else w') := by
  split
  · exact h
  · exact h'

theorem carrying_foldlM {f : β → α → Writer β} (hf : ∀ b x, Carrying job (f b x)) (xs : Array α)
    (b : β) : Carrying job (xs.foldlM f b) := by
  rw [← Array.foldlM_toList]
  induction xs.toList generalizing b with
  | nil => exact carrying_pure
  | cons x rest ih =>
    rw [List.foldlM_cons]
    exact (hf b x).bind ih

theorem carrying_place (o : Option UInt32) (k : Nat) (subject : Unplaced) :
    Carrying job (place o k subject) := by
  unfold place
  refine carrying_computesOffsets.bind fun _ => .ite ?_ ?_
  · exact (carrying_changeStream _).bind fun _ => carrying_tell.bind fun _ => carrying_ofExcept _
  · cases o with
    | none => exact carrying_throw _
    | some o => exact (carrying_changeStream _).bind fun _ => carrying_pure

/-! ### Tables -/

theorem carrying_reserveTable (s : Section) : Carrying job (reserveTable s) := by
  unfold reserveTable
  refine carrying_read.bind fun job' => carrying_computesOffsets.bind fun _ => .ite ?_ carrying_pure
  refine (carrying_changeStream _).bind fun _ => carrying_tell.bind fun start =>
    (carrying_changeLayout fun l => ?_).bind fun _ => carrying_changeStream _
  refine .trans ?_ (Layout.carries_setSectionOffset _ s _)
  generalize job'.graph.count s = count
  induction count with
  | zero => exact .refl l
  | succ count ih =>
    rw [Nat.fold_succ]
    exact ih.trans (Layout.carries_modifyPlace _ _ _)

theorem carrying_fillTable {row : Type} [Row row] (toRow : Layout → s.Content → Except Error row) :
    Carrying job (fillTable s toRow) := by
  unfold fillTable
  refine carrying_read.bind fun _ => .ite carrying_pure (carrying_get.bind fun d => ?_)
  cases d.layout.sectionOffset s with
  | none => exact carrying_throw _
  | some o =>
    exact (carrying_changeStream _).bind fun _ => carrying_foldlM (fun _ _ => carrying_get.bind
      fun _ => (carrying_ofExcept _).bind fun _ => carrying_changeStream _) _ _

theorem carrying_writeTable {row : Type} [Row row]
    (toRow : Layout → s.Content → Except Error row) : Carrying job (writeTable s toRow) :=
  (carrying_reserveTable s).bind fun _ => carrying_fillTable toRow

/-! ### Data items -/

theorem carrying_writeItem (encode : Layout → s.Content → Except Error Stream) (first : UInt32)
    (r : Ref s) : Carrying job (writeItem s encode first r) := by
  unfold writeItem
  refine carrying_read.bind fun job' => ?_
  cases job'.graph.get? r with
  | none => exact carrying_pure
  | some x =>
    exact carrying_get.bind fun _ => (carrying_place _ _ _).bind fun _ => carrying_get.bind fun _ =>
      (carrying_ofExcept _).bind fun _ => (carrying_changeStream _).bind fun _ =>
      carrying_tell.bind fun _ => (carrying_ofExcept _).bind fun _ =>
      (carrying_changeLayout fun l => l.carries_modifyPlace r _).bind fun _ => carrying_pure

theorem carrying_writeItems (refs : Array (Ref s))
    (encode : Layout → s.Content → Except Error Stream) :
    Carrying job (writeItems s refs encode) := by
  unfold writeItems
  exact .ite carrying_pure ((carrying_foldlM (carrying_writeItem encode) _ _).bind fun first =>
    carrying_computesOffsets.bind fun _ => carrying_get.bind fun _ =>
    .ite (carrying_changeLayout fun l => l.carries_setSectionOffset s first) carrying_pure)

theorem carrying_writeSection (encode : Layout → s.Content → Except Error Stream) :
    Carrying job (writeSection s encode) :=
  carrying_read.bind fun _ => carrying_writeItems _ encode

theorem carrying_codeRefs : Carrying job codeRefs :=
  carrying_read.bind fun _ => carrying_get.bind fun _ => carrying_pure

theorem carrying_debugInfoRefs : Carrying job debugInfoRefs :=
  carrying_read.bind fun _ => carrying_codeRefs.bind fun _ => carrying_get.bind fun _ =>
    carrying_pure

theorem carrying_reserveBody (first : Option UInt32) (r : Ref .codeItem) :
    Carrying job (reserveBody first r) := by
  unfold reserveBody
  refine carrying_read.bind fun job' => ?_
  cases job'.graph.get? r with
  | none => exact carrying_pure
  | some code =>
    exact (carrying_ofExcept _).bind fun _ => (carrying_place _ _ _).bind fun _ =>
      (carrying_changeStream _).bind fun _ =>
      (carrying_changeLayout fun l => l.carries_modifyPlace r _).bind fun _ =>
      (carrying_ofExcept _).bind fun _ =>
      (carrying_changeLayout fun l => l.carries_modifyPlace r _).bind fun _ => carrying_pure

theorem carrying_reserveCode : Carrying job reserveCode := by
  unfold reserveCode
  refine carrying_computesOffsets.bind fun _ => .ite ?_ carrying_pure
  refine carrying_codeRefs.bind fun _ => (carrying_foldlM carrying_reserveBody _ _).bind fun first => ?_
  cases first with
  | none => exact carrying_pure
  | some first => exact carrying_changeLayout fun l => l.carries_setSectionOffset _ first

theorem carrying_writeBody (first : UInt32) (r : Ref .codeItem) :
    Carrying job (writeBody first r) := by
  unfold writeBody
  refine carrying_read.bind fun job' => ?_
  cases job'.graph.get? r with
  | none => exact carrying_pure
  | some code =>
    exact carrying_get.bind fun _ => (carrying_ofExcept _).bind fun _ =>
      (carrying_ofExcept _).bind fun _ => (carrying_ofExcept _).bind fun _ =>
      (carrying_changeStream _).bind fun _ => carrying_tell.bind fun _ =>
      (carrying_ofExcept _).bind fun _ =>
      (carrying_changeLayout fun l => l.carries_modifyPlace r _).bind fun _ => carrying_pure

theorem carrying_writeCode : Carrying job writeCode := by
  unfold writeCode
  have hresume (resume : Nat) : Carrying job (do
      if ← computesOffsets then changeStream fun stream => stream.seek resume) :=
    carrying_computesOffsets.bind fun _ => .ite (carrying_changeStream _) carrying_pure
  exact carrying_codeRefs.bind fun _ => carrying_tell.bind fun resume =>
    (carrying_foldlM carrying_writeBody _ _).bind fun first => carrying_get.bind fun _ =>
    .ite ((carrying_changeLayout fun l => l.carries_setSectionOffset _ first).bind fun _ =>
      hresume resume) (hresume resume)

/-! ### The whole of an image -/

theorem carrying_openData : Carrying job openData :=
  carrying_computesOffsets.bind fun _ => .ite
    ((carrying_changeStream _).bind fun _ => carrying_tell.bind fun _ =>
      (carrying_ofExcept _).bind fun start =>
      carrying_changeLayout (Layout.carries_set .dataOffset start)) carrying_pure

theorem carrying_writeHiddenapi : Carrying job writeHiddenapi := by
  unfold writeHiddenapi
  refine carrying_read.bind fun job' => ?_
  cases job'.graph.hiddenapi with
  | none => exact carrying_pure
  | some flags =>
    exact carrying_get.bind fun _ => (carrying_place _ _ _).bind fun _ =>
      (carrying_ofExcept _).bind fun _ => (carrying_changeStream _).bind fun _ =>
      carrying_tell.bind fun _ => (carrying_ofExcept _).bind fun _ =>
      carrying_changeLayout fun _ => ⟨rfl, rfl, fun _ h => h⟩

theorem carrying_writeData : Carrying job writeData :=
  carrying_reserveCode.bind fun _ => carrying_debugInfoRefs.bind fun _ =>
    (carrying_writeItems _ _).bind fun _ => carrying_writeCode.bind fun _ =>
    (carrying_writeSection _).bind fun _ => (carrying_writeSection _).bind fun _ =>
    (carrying_writeSection _).bind fun _ => (carrying_writeSection _).bind fun _ =>
    (carrying_writeSection _).bind fun _ => (carrying_writeSection _).bind fun _ =>
    (carrying_writeSection _).bind fun _ => (carrying_writeSection _).bind fun _ =>
    carrying_writeHiddenapi

theorem carrying_writeMapList : Carrying job writeMapList := by
  unfold writeMapList
  have hclose : Carrying job (do
      if ← computesOffsets then
        changeStream fun stream => stream.alignTo dataAlignment
        let stop ← ofExcept (toWord (← tell))
        changeLayout fun l => { l with dataSize := stop - l.dataOffset }) :=
    carrying_computesOffsets.bind fun _ => .ite
      ((carrying_changeStream _).bind fun _ => carrying_tell.bind fun _ =>
        (carrying_ofExcept _).bind fun _ => carrying_changeLayout fun l =>
        l.carries_set .dataSize _) carrying_pure
  have hlist : Carrying job (do
      let list ← ofExcept (mapListOf (← read).graph (← get).layout)
      let bytes ← ofExcept list.encode
      changeStream fun stream => stream.write bytes
      if ← computesOffsets then
        changeStream fun stream => stream.alignTo dataAlignment
        let stop ← ofExcept (toWord (← tell))
        changeLayout fun l => { l with dataSize := stop - l.dataOffset }) :=
    carrying_read.bind fun _ => carrying_get.bind fun _ => (carrying_ofExcept _).bind fun _ =>
      (carrying_ofExcept _).bind fun _ => (carrying_changeStream _).bind fun _ => hclose
  refine carrying_computesOffsets.bind fun _ => .ite ?_ ?_
  · exact (carrying_changeStream _).bind fun _ => carrying_tell.bind fun _ =>
      (carrying_ofExcept _).bind fun o =>
      (carrying_changeLayout (Layout.carries_set .mapOffset o)).bind fun _ => hlist
  · exact carrying_get.bind fun _ => (carrying_changeStream _).bind fun _ => hlist

theorem carrying_writeLinkData : Carrying job writeLinkData := by
  unfold writeLinkData
  refine carrying_read.bind fun _ => .ite ?_ ?_
  · exact carrying_computesOffsets.bind fun _ => .ite
      ((carrying_changeLayout (Layout.carries_set .linkOffset 0)).bind fun _ => carrying_pure)
      carrying_pure
  · refine carrying_computesOffsets.bind fun _ => .ite ?_ ?_
    · exact carrying_tell.bind fun _ => (carrying_ofExcept _).bind fun o =>
        (carrying_changeLayout (Layout.carries_set .linkOffset o)).bind fun _ =>
        carrying_changeStream _
    · exact carrying_get.bind fun _ => (carrying_changeStream _).bind fun _ =>
        carrying_changeStream _

/-! ### Tables that have an offset -/

/-- Once the step is done the table has an offset, unless it has no entries. -/
def Naming (job : Job) (s : Section) (w : Writer α) : Prop :=
  ∀ d, Establishes job (fun _ => True) w
    (fun _ d' => job.graph.count s ≠ 0 → (d'.layout.sectionOffset s).isSome) d

/-- The step is followed by one that does the naming. -/
theorem naming_bind {w : Writer β} {f : β → Writer α} (hf : ∀ b, Naming job s (f b)) :
    Naming job s (w >>= f) :=
  fun _ => establishes_true.bind fun b d' _ => hf b d'

/-- Later steps keep what is named. -/
theorem Naming.bind {w : Writer β} {f : β → Writer α} (hw : Naming job s w)
    (hf : ∀ b, Carrying job (f b)) : Naming job s (w >>= f) :=
  fun d => (hw d).bind fun b d' h => (hf b d').mono fun _ _ hcarries hcount =>
    hcarries.named s (h hcount)

/-- A table with entries is filled only where it has an offset. -/
theorem naming_fillTable {row : Type} [Row row] (toRow : Layout → s.Content → Except Error row) :
    Naming job s (fillTable s toRow) := by
  intro d
  have hcarrying := @carrying_fillTable job s row _ toRow d
  unfold fillTable at hcarrying ⊢
  rw [establishes_bind, establishes_read, establishes_ite] at hcarrying ⊢
  refine ⟨fun hempty hcount => ?_, fun hne => ?_⟩
  · exact absurd (Array.size_eq_zero_iff.mpr (Array.isEmpty_iff.mp hempty)) hcount
  · have hrest := hcarrying.2 hne
    rw [establishes_bind, establishes_get] at hrest ⊢
    cases ho : d.layout.sectionOffset s with
    | none => exact trivial
    | some o =>
      rw [ho] at hrest
      exact hrest.mono fun _ _ hcarries _ => hcarries.named s (by rw [ho]; rfl)

theorem naming_writeTable {row : Type} [Row row]
    (toRow : Layout → s.Content → Except Error row) : Naming job s (writeTable s toRow) :=
  naming_bind fun _ => naming_fillTable toRow

end Writer

/-! ## The header -/

namespace FileHeader

/-- The tables of which the header says where they lie. -/
def tables : List Section :=
  [.stringId, .typeId, .protoId, .fieldId, .methodId, .classDef]

/-- Where the header says that a table lies. -/
def table? (header : FileHeader) : Section → Option SectionRange
  | .stringId => some header.stringIds
  | .typeId => some header.typeIds
  | .protoId => some header.protoIds
  | .fieldId => some header.fieldIds
  | .methodId => some header.methodIds
  | .classDef => some header.classDefs
  | _ => none

theorem mem_tables_of_table? {header : FileHeader} {s : Section} {range : SectionRange}
    (h : header.table? s = some range) : s ∈ tables := by
  cases s <;> first | decide | cases h

/-- The header says of a graph and its layout what there is to say: an empty table has the offset
zero, and every other table the one that the layout has. -/
structure Describes (header : FileHeader) (g : Graph) (l : Layout) : Prop where
  magic : header.magic = g.magic
  checksum : header.checksum = l.checksum
  signature : header.signature = l.signature
  fileSize : header.fileSize = l.fileSize
  headerSize : header.headerSize.toNat = byteSize
  endianTag : header.endianTag = g.endianTag
  linkSize : header.link.size.toNat = g.linkData.size
  linkOffset : header.link.offset = l.linkOffset
  mapOffset : header.mapOffset = l.mapOffset
  tableSize : ∀ s range, header.table? s = some range → range.size.toNat = g.count s
  tableOffset : ∀ s range, header.table? s = some range →
    if g.count s = 0 then range.offset = 0 else l.sectionOffset s = some range.offset
  data : header.data = ⟨l.dataSize, l.dataOffset⟩

end FileHeader

namespace Writer

variable {g : Graph} {l : Layout} {s : Section}

theorem tableRange_eq_ok {range : SectionRange} (h : tableRange g l s = .ok range)
    (hnamed : g.count s ≠ 0 → (l.sectionOffset s).isSome) :
    range.size.toNat = g.count s ∧
      if g.count s = 0 then range.offset = 0 else l.sectionOffset s = some range.offset := by
  simp only [tableRange, Except.bind_eq_ok_iff, Except.pure_eq_ok_iff, toWord_eq_ok_iff] at h
  obtain ⟨size, hsize, rfl⟩ := h
  have hzero : (size == 0) = decide (g.count s = 0) := by
    rw [Bool.eq_iff_iff, beq_iff_eq, decide_eq_true_iff, hsize, ← UInt32.toNat_inj,
      UInt32.toNat_zero]
  refine ⟨hsize.symm, ?_⟩
  simp only [hzero, decide_eq_true_iff]
  split
  · rfl
  · rename_i hne
    obtain ⟨o, ho⟩ := Option.isSome_iff_exists.mp (hnamed hne)
    rw [ho, Option.getD_some]

theorem tableRange_of_headerOf {header : FileHeader} (h : headerOf g l = .ok header)
    {range : SectionRange} (hrange : header.table? s = some range) :
    tableRange g l s = .ok range := by
  simp only [headerOf, Except.bind_eq_ok_iff, Except.pure_eq_ok_iff] at h
  obtain ⟨_, -, strings, hstrings, types, htypes, protos, hprotos, fields, hfields, methods,
    hmethods, classes, hclasses, rfl⟩ := h
  cases s <;> cases hrange <;> assumption

/-- A header that is made describes what it is made from. -/
theorem describes_of_headerOf {header : FileHeader} (h : headerOf g l = .ok header)
    (hnamed : ∀ s ∈ FileHeader.tables, g.count s ≠ 0 → (l.sectionOffset s).isSome) :
    header.Describes g l := by
  have htable (s : Section) (range : SectionRange) (hrange : header.table? s = some range) :=
    tableRange_eq_ok (tableRange_of_headerOf h hrange)
      (hnamed s (FileHeader.mem_tables_of_table? hrange))
  simp only [headerOf, Except.bind_eq_ok_iff, Except.pure_eq_ok_iff, toWord_eq_ok_iff] at h
  obtain ⟨link, hlink, _, -, _, -, _, -, _, -, _, -, _, -, rfl⟩ := h
  exact {
    magic := rfl, checksum := rfl, signature := rfl, fileSize := rfl, headerSize := rfl
    endianTag := rfl, linkSize := hlink.symm, linkOffset := rfl, mapOffset := rfl, data := rfl
    tableSize := fun s range hrange => (htable s range hrange).1
    tableOffset := fun s range hrange => (htable s range hrange).2 }

theorem tableRange_of_eq {range : SectionRange} (hsize : range.size.toNat = g.count s)
    (hoffset : if g.count s = 0 then range.offset = 0 else l.sectionOffset s = some range.offset) :
    tableRange g l s = .ok range := by
  have hzero : range.size = 0 ↔ g.count s = 0 := by
    rw [← hsize, ← UInt32.toNat_inj, UInt32.toNat_zero]
  simp only [tableRange, Except.bind_eq_ok_iff, toWord_eq_ok_iff]
  refine ⟨range.size, hsize.symm, ?_⟩
  by_cases hcount : g.count s = 0
  · rw [if_pos hcount] at hoffset
    rw [if_pos (by simpa using hzero.mpr hcount), ← hoffset]
    rfl
  · rw [if_neg hcount] at hoffset
    rw [if_neg (by simpa using mt hzero.mp hcount), hoffset, Option.getD_some]
    rfl

/-- A header that describes a graph and its layout is the one that is made from them. -/
theorem headerOf_of_describes {header : FileHeader} (h : header.Describes g l) :
    headerOf g l = .ok header := by
  have htable (s : Section) (range : SectionRange) (hrange : header.table? s = some range) :
      tableRange g l s = .ok range :=
    tableRange_of_eq (h.tableSize s range hrange) (h.tableOffset s range hrange)
  have hheader : FileHeader.byteSize.toUInt32 = header.headerSize := by
    rw [← h.headerSize, Nat.toUInt32_eq, UInt32.ofNat_toNat]
  have hlink : toWord g.linkData.size = .ok header.link.size :=
    toWord_eq_ok_iff.mpr h.linkSize.symm
  simp only [headerOf, hlink, htable .stringId _ rfl, htable .typeId _ rfl, htable .protoId _ rfl,
    htable .fieldId _ rfl, htable .methodId _ rfl, htable .classDef _ rfl, hheader, ← h.magic,
    ← h.checksum, ← h.signature, ← h.fileSize, ← h.endianTag, ← h.linkOffset, ← h.mapOffset, ← h.data]
  rfl

/-! ## The stamp -/

/-- The stamp in a header that is made is that of the layout. -/
theorem stamp_of_headerOf {header : FileHeader} (h : headerOf g l = .ok header) :
    header.checksum = l.checksum ∧ header.signature = l.signature := by
  simp only [headerOf, Except.bind_eq_ok_iff, Except.pure_eq_ok_iff] at h
  obtain ⟨_, -, _, -, _, -, _, -, _, -, _, -, _, -, rfl⟩ := h
  exact ⟨rfl, rfl⟩

/-- The image is closed with the layout `l'`, which has been made from `l`. -/
structure Closed (job : Job) (l : Layout) (image : Bytes) (l' : Layout) : Prop where
  size_eq : image.size = l'.fileSize.toNat
  byteSize_le : FileHeader.byteSize ≤ image.size
  header : ∃ header, headerOf job.graph l' = .ok header ∧ image.HoldsAt 0 header.encode.toList
  checksum : job.options.updateChecksum = false → l'.checksum = l.checksum
  signature : job.options.updateSignature = false → l'.signature = l.signature

variable {job : Job} {d : Draft}

/-- Closing an image keeps what was carried along before. -/
theorem Closed.of_carries {image : Bytes} {l₀ l' : Layout} (hcarries : l₀.Carries l)
    (h : Closed job l image l') : Closed job l₀ image l' where
  size_eq := h.size_eq
  byteSize_le := h.byteSize_le
  header := h.header
  checksum hkept := (h.checksum hkept).trans hcarries.checksum
  signature hkept := (h.signature hkept).trans hcarries.signature

theorem establishes_closeImage :
    Establishes job (fun _ => True) closeImage (fun image d' => d.layout.Carries d'.layout ∧
      image.size = d'.layout.fileSize.toNat) d := by
  unfold closeImage
  simp only [establishes_bind, establishes_get, establishes_computesOffsets, establishes_ite,
    establishes_ofExcept, establishes_changeLayout, establishes_throw, establishes_pure,
    Stream.size_contents, and_true, implies_true, true_and]
  exact ⟨fun _ size _ => d.layout.carries_set .fileSize size, fun _ _ => .refl d.layout⟩

/-- Storing the header and the stamp over it closes an image of the right size. -/
theorem establishes_closed {image : Bytes} (hsize : image.size = d.layout.fileSize.toNat) :
    Establishes job (fun _ => True) (stampHeader image)
      (fun image' d' => Closed job d.layout image' d'.layout ∧
        ∀ s, d'.layout.sectionOffset s = d.layout.sectionOffset s) d := by
  unfold stampHeader
  simp only [establishes_bind, establishes_read, establishes_get, establishes_ofExcept,
    establishes_changeLayout, establishes_pure, implies_true, and_true]
  intro header hheader stored hstored
  generalize imageSignature _ = signature
  generalize imageChecksum _ = checksum
  obtain ⟨hfits, hstored⟩ := FileHeader.store_eq_ok_iff.mp hstored
  rw [hstored]
  refine ⟨?_, fun _ => rfl⟩
  constructor
  case size_eq => simp [hsize]
  case byteSize_le => simpa using hfits
  case header => exact ⟨_, headerOf_stamp hheader _ _, FileHeader.holdsAt_stamp hfits _ _⟩
  case checksum =>
    intro hkept
    simp [hkept, (stamp_of_headerOf hheader).1]
  case signature =>
    intro hkept
    simp [hkept, (stamp_of_headerOf hheader).2]

/-- The tables that name no data items have offsets when the first pass over the tables is done. -/
theorem naming_writeTables (hs : s = .typeId ∨ s = .fieldId ∨ s = .methodId) :
    Naming job s writeTables := by
  have hlast : Carrying job (do
      reserveTable .classDef; reserveTable .callSiteId
      writeTable .methodHandle fun _ x => MethodHandle.toRow x) :=
    (carrying_reserveTable _).bind fun _ => (carrying_reserveTable _).bind fun _ =>
      carrying_writeTable _
  have hmethods : Carrying job (do
      writeTable .methodId fun _ x => MethodId.toRow x
      reserveTable .classDef; reserveTable .callSiteId
      writeTable .methodHandle fun _ x => MethodHandle.toRow x) :=
    (carrying_writeTable _).bind fun _ => hlast
  rcases hs with rfl | rfl | rfl
  · exact naming_bind fun _ => (naming_writeTable _).bind fun _ =>
      (carrying_reserveTable _).bind fun _ => (carrying_writeTable _).bind fun _ => hmethods
  · exact naming_bind fun _ => naming_bind fun _ => naming_bind fun _ =>
      (naming_writeTable _).bind fun _ => hmethods
  · exact naming_bind fun _ => naming_bind fun _ => naming_bind fun _ => naming_bind fun _ =>
      (naming_writeTable _).bind fun _ => hlast

/-- The other tables of the header have offsets when they are filled in. -/
theorem naming_fillTables (hs : s = .stringId ∨ s = .protoId ∨ s = .classDef) :
    Naming job s fillTables := by
  rcases hs with rfl | rfl | rfl
  · exact (naming_fillTable _).bind fun _ => (carrying_fillTable _).bind fun _ =>
      (carrying_fillTable _).bind fun _ => carrying_fillTable _
  · exact naming_bind fun _ => (naming_fillTable _).bind fun _ =>
      (carrying_fillTable _).bind fun _ => carrying_fillTable _
  · exact naming_bind fun _ => naming_bind fun _ => (naming_fillTable _).bind fun _ =>
      carrying_fillTable _

theorem carrying_writeTables : Carrying job writeTables :=
  (carrying_reserveTable _).bind fun _ => (carrying_writeTable _).bind fun _ =>
    (carrying_reserveTable _).bind fun _ => (carrying_writeTable _).bind fun _ =>
    (carrying_writeTable _).bind fun _ => (carrying_reserveTable _).bind fun _ =>
    (carrying_reserveTable _).bind fun _ => carrying_writeTable _

theorem carrying_fillTables : Carrying job fillTables :=
  (carrying_fillTable _).bind fun _ => (carrying_fillTable _).bind fun _ =>
    (carrying_fillTable _).bind fun _ => carrying_fillTable _

/-- All steps between the first one and the last. -/
theorem carrying_upToClose : Carrying job (do
    writeTables; openData; writeData; fillTables; writeMapList; writeLinkData; closeImage) :=
  carrying_writeTables.bind fun _ => carrying_openData.bind fun _ => carrying_writeData.bind
    fun _ => carrying_fillTables.bind fun _ => carrying_writeMapList.bind fun _ =>
    carrying_writeLinkData.bind fun _ => fun _ => establishes_closeImage.mono fun _ _ h => h.1

/-- Before the image is closed, the tables of the header have offsets. -/
theorem naming_upToClose (hs : s ∈ FileHeader.tables) : Naming job s (do
    writeTables; openData; writeData; fillTables; writeMapList; writeLinkData; closeImage) := by
  have hlast : Carrying job (do writeMapList; writeLinkData; closeImage) :=
    carrying_writeMapList.bind fun _ => carrying_writeLinkData.bind fun _ =>
      fun _ => establishes_closeImage.mono fun _ _ h => h.1
  have hfirst (h : s = .typeId ∨ s = .fieldId ∨ s = .methodId) :=
    (@naming_writeTables s job h).bind fun _ => carrying_openData.bind fun _ =>
      carrying_writeData.bind fun _ => carrying_fillTables.bind fun _ => hlast
  have hfill (h : s = .stringId ∨ s = .protoId ∨ s = .classDef) : Naming job s (do
      writeTables; openData; writeData; fillTables; writeMapList; writeLinkData; closeImage) :=
    naming_bind fun _ => naming_bind fun _ => naming_bind fun _ =>
      (naming_fillTables h).bind fun _ => hlast
  simp only [FileHeader.tables, List.mem_cons, List.not_mem_nil, or_false] at hs
  rcases hs with h | h | h | h | h | h
  · exact hfill (.inl h)
  · exact hfirst (.inl h)
  · exact hfill (.inr (.inl h))
  · exact hfirst (.inr (.inl h))
  · exact hfirst (.inr (.inr h))
  · exact hfill (.inr (.inr h))

/-- What is closed has the size that the layout says. -/
theorem establishes_upToClose : Establishes job (fun _ => True) (do
    writeTables; openData; writeData; fillTables; writeMapList; writeLinkData; closeImage)
    (fun image d' => image.size = d'.layout.fileSize.toNat) d :=
  establishes_true.bind fun _ _ _ => establishes_true.bind fun _ _ _ =>
    establishes_true.bind fun _ _ _ => establishes_true.bind fun _ _ _ =>
    establishes_true.bind fun _ _ _ => establishes_true.bind fun _ _ _ =>
    establishes_closeImage.mono fun _ _ h => h.2

theorem Establishes.and {α : Type} {E E' : Error → Prop} {w : Writer α} {Q Q' : α → Draft → Prop}
    (h : Establishes job E w Q d) (h' : Establishes job E' w Q' d) :
    Establishes job E w (fun a d' => Q a d' ∧ Q' a d') d := by
  unfold Establishes at h h' ⊢
  cases hw : w job d with
  | ok a d' =>
    rw [hw] at h h'
    exact ⟨h, h'⟩
  | error e d' => rwa [hw] at h

/-- An image is closed from the layout that was there at the start, and a table of the header has
an offset by then. -/
theorem establishes_writeImage_closed (hs : s ∈ FileHeader.tables) :
    Establishes job (fun _ => True) writeImage (fun image d' => Closed job d.layout image d'.layout ∧
      (job.graph.count s ≠ 0 → (d'.layout.sectionOffset s).isSome)) d := by
  have hbody (d : Draft) : Establishes job (fun _ => True) (do
      changeStream fun stream => stream.skip FileHeader.byteSize
      writeTables; openData; writeData; fillTables; writeMapList; writeLinkData
      stampHeader (← closeImage)) (fun image d' => Closed job d.layout image d'.layout ∧
      (job.graph.count s ≠ 0 → (d'.layout.sectionOffset s).isSome)) d := by
    have hassoc : (do
        changeStream fun stream => stream.skip FileHeader.byteSize
        writeTables; openData; writeData; fillTables; writeMapList; writeLinkData
        stampHeader (← closeImage)) = (do
        changeStream fun stream => stream.skip FileHeader.byteSize
        let image ← (do
          writeTables; openData; writeData; fillTables; writeMapList; writeLinkData; closeImage)
        stampHeader image : Writer Bytes) := by
      simp only [bind_assoc]
    rw [hassoc, establishes_bind, establishes_changeStream]
    refine (((carrying_upToClose _).and (naming_upToClose hs _)).and establishes_upToClose).bind ?_
    rintro image d' ⟨⟨hcarries, hnamed⟩, hsize⟩
    refine (establishes_closed hsize).mono fun _ _ h => ⟨h.1.of_carries hcarries, fun hcount => ?_⟩
    rw [h.2]
    exact hnamed hcount
  unfold writeImage
  rw [establishes_bind, establishes_computesOffsets]
  cases job.options.computeOffsets with
  | false => exact hbody d
  | true =>
    rw [if_pos rfl, establishes_bind, establishes_changeLayout]
    exact (hbody { d with layout := d.layout.clearOffsets }).mono fun _ _ h =>
      ⟨⟨h.1.size_eq, h.1.byteSize_le, h.1.header, h.1.checksum, h.1.signature⟩, h.2⟩

end Writer

namespace Graph

variable {g : Graph} {options : WriteOptions} {layout l : Layout} {image : Bytes}

/-- A written image is closed, and the tables of its header have offsets. -/
theorem write_closed (h : g.write options layout = (.ok image, l)) :
    Writer.Closed ⟨g, options, g.liveCode⟩ layout image l ∧
      ∀ s ∈ FileHeader.tables, g.count s ≠ 0 → (l.sectionOffset s).isSome := by
  unfold write at h
  cases hrun : Writer.writeImage ⟨g, options, g.liveCode⟩ ⟨∅, layout⟩ with
  | ok image' d =>
    rw [hrun] at h
    cases h
    have hclosed (s : Section) (hs : s ∈ FileHeader.tables) :=
      (Writer.establishes_writeImage_closed (d := ⟨∅, layout⟩) hs).of_ok hrun
    exact ⟨(hclosed .stringId (by decide)).1, fun s hs => (hclosed s hs).2⟩
  | error e d =>
    rw [hrun] at h
    cases h

/-- However a graph is written, the image has the size that its layout says, and a header that
describes the graph and the layout. The checksum that it stores is that of the bytes behind it, and
the signature the digest of the bytes behind that, as far as they were asked for; otherwise they
are those that the layout had before. -/
theorem write_header (h : g.write options layout = (.ok image, l)) :
    image.size = l.fileSize.toNat ∧ FileHeader.byteSize ≤ image.size ∧
      (∃ header, FileHeader.read image = .ok header ∧ header.Describes g l) ∧
      storedChecksum? image = some l.checksum ∧
      image.extract FileHeader.signatureOffset FileHeader.signedOffset = l.signature.toArray ∧
      l.checksum = (if options.updateChecksum then
        adler32 (image.extract FileHeader.signatureOffset image.size) else layout.checksum) ∧
      l.signature = (if options.updateSignature then
        sha1 (image.extract FileHeader.signedOffset image.size) else layout.signature) := by
  obtain ⟨hclosed, htables⟩ := write_closed h
  obtain ⟨hchecksum, hsignature⟩ := write_stamped h
  obtain ⟨header, hheader, hat⟩ := hclosed.header
  obtain ⟨hsum, hsig⟩ := Writer.stamp_of_headerOf hheader
  have hparts := hat
  rw [FileHeader.toList_encode, hsum, hsig] at hparts
  simp only [Bytes.holdsAt_append, List.length_append, Array.length_toList, Vector.size_toArray,
    Bytes.size_ofWord] at hparts
  obtain ⟨⟨⟨-, hword⟩, hdigest⟩, -⟩ := hparts
  refine ⟨hclosed.size_eq, hclosed.byteSize_le, ⟨header, FileHeader.read_eq_ok_iff.mpr hat,
    Writer.describes_of_headerOf hheader htables⟩, ?_, ?_, ?_, ?_⟩
  · have hread : Decoder.word.runAt image FileHeader.checksumOffset =
        .ok (l.checksum, FileHeader.checksumOffset + 4) := Decoder.reads_word_iff.mpr ⟨hword, rfl⟩
    rw [storedChecksum?, hread]
  · have hle : FileHeader.signatureOffset + l.signature.toArray.size ≤ image.size := by
      rw [Vector.size_toArray]
      exact Nat.le_trans (by decide) hclosed.byteSize_le
    have hextract := Bytes.extract_eq_of_holdsAt hdigest hle
    rwa [Vector.size_toArray] at hextract
  · cases hupdate : options.updateChecksum with
    | false => exact hclosed.checksum hupdate
    | true => exact (hchecksum hupdate).symm
  · cases hupdate : options.updateSignature with
    | false => exact hclosed.signature hupdate
    | true => exact (hsignature hupdate).symm

/-- The graph with one method, laid out anew, has a fresh checksum over a fresh signature. -/
theorem write_header_oneMethod : ∃ image l, oneMethod.write .relayout .empty = (.ok image, l) ∧
    image.size = l.fileSize.toNat ∧
    (∃ header, FileHeader.read image = .ok header ∧ header.Describes oneMethod l) ∧
    storedChecksum? image = some (adler32 (image.extract FileHeader.signatureOffset image.size)) ∧
    image.extract FileHeader.signatureOffset FileHeader.signedOffset =
      (sha1 (image.extract FileHeader.signedOffset image.size)).toArray := by
  obtain ⟨image, l, h⟩ := write_oneMethod
  obtain ⟨hsize, -, hheader, hsum, hsig, hchecksum, hsignature⟩ := write_header h
  refine ⟨image, l, h, hsize, hheader, ?_, ?_⟩
  · rw [hsum]
    exact congrArg some hchecksum
  · rw [hsig]
    exact congrArg Vector.toArray hsignature

end Graph

end DexGraph
