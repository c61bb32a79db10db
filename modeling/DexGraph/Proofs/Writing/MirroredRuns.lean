import DexGraph.Proofs.Graph.Emitted
import DexGraph.Proofs.Writing.Mirrors
import DexGraph.Proofs.Writing.Relayout
import DexGraph.Proofs.Writing.Stamp

/-!
# Writing a mirror

Two graphs that mirror each other are written step by step in the same way, up to the header: each
step comes to the same result or to the same error, and the drafts stay alike. Only the references
to the items that are written are different ones, but they correspond.
-/

namespace DexGraph

variable {ρ : Pairing}

/-- What the jobs write mirrors each other, and they write it in the same way. -/
structure Job.Mirrors (job job' : Job) (ρ : Pairing) : Prop where
  graph : job.graph.Mirrors job'.graph ρ
  options : job.options = job'.options
  live : ∀ {r r' : Ref .codeItem}, ρ _ r r' →
    job.live.contains r.slot = job'.live.contains r'.slot

/-! ## Stamping over a header -/

/-- Storing the signature and the checksum behind the header comes to the same as storing the
header with them. -/
theorem FileHeader.overlay_stamp {header : FileHeader} {image : Bytes}
    (hsize : byteSize ≤ image.size) (checksum : UInt32) (signature : Signature) :
    ((image.overlay 0 header.encode).overlay signatureOffset signature.toArray).overlay
      checksumOffset (.ofWord checksum) =
        image.overlay 0 (header.stamp checksum signature).encode := by
  have hat : (((image.overlay 0 header.encode).overlay signatureOffset signature.toArray).overlay
      checksumOffset (.ofWord checksum)).HoldsAt 0 _ := holdsAt_stamp hsize checksum signature
  apply Array.ext_getElem?
  intro i
  by_cases hi : i < byteSize
  · have hlt : i < (header.stamp checksum signature).encode.size := by rwa [size_encode]
    have hleft := hat i (header.stamp checksum signature).encode[i]
      (by rw [Array.getElem?_toList, Array.getElem?_eq_getElem hlt])
    rw [Nat.zero_add] at hleft
    rw [hleft, Bytes.getElem?_overlay, if_pos (by omega), Nat.sub_zero,
      Array.getElem?_eq_getElem hlt]
  · have hbyte : byteSize = 112 := rfl
    have hsig : signatureOffset = 12 := rfl
    have hsum : checksumOffset = 8 := rfl
    simp only [Bytes.getElem?_overlay, Vector.size_toArray, Bytes.size_ofWord, size_encode]
    rw [if_neg (by omega), if_neg (by omega), if_neg (by omega), if_neg (by omega)]

section Stamped

variable {header : FileHeader} {image : Bytes} (hsize : FileHeader.byteSize ≤ image.size)
  (checksum : UInt32) (signature : Signature)
include hsize

/-- The signature does not count what the header had for the checksum and the signature. -/
theorem imageSignature_stamp :
    imageSignature (image.overlay 0 (header.stamp checksum signature).encode) =
      imageSignature (image.overlay 0 header.encode) := by
  rw [← FileHeader.overlay_stamp hsize,
    imageSignature_overlay (by simp [FileHeader.checksumOffset, FileHeader.signedOffset]),
    imageSignature_overlay (by simp [FileHeader.signatureOffset, FileHeader.signedOffset])]

/-- The checksum does not count what the header had for it, nor for the signature when this has been
replaced. -/
theorem imageChecksum_stamp (replaced : Signature) :
    imageChecksum ((image.overlay 0 (header.stamp checksum signature).encode).overlay
      FileHeader.signatureOffset replaced.toArray) =
        imageChecksum ((image.overlay 0 header.encode).overlay
          FileHeader.signatureOffset replaced.toArray) := by
  -- With one and the same checksum stored as well, the two images are the same.
  have hstored (header : FileHeader) : imageChecksum ((image.overlay 0 header.encode).overlay
      FileHeader.signatureOffset replaced.toArray) =
        imageChecksum (image.overlay 0 (header.stamp 0 replaced).encode) := by
    rw [← FileHeader.overlay_stamp hsize]
    exact (imageChecksum_overlay
      (by simp [FileHeader.checksumOffset, FileHeader.signatureOffset])).symm
  exact (hstored _).trans (hstored header).symm

end Stamped

/-! ## What corresponds -/

section Correspondence

variable {α β γ δ : Type} {R : α → β → Prop}

theorem rel_bind {S : γ → δ → Prop} {x : Option α} {y : Option β} {f : α → Option γ}
    {f' : β → Option δ} (h : Option.Rel R x y) (hf : ∀ a b, R a b → Option.Rel S (f a) (f' b)) :
    Option.Rel S (x.bind f) (y.bind f') := by
  cases h with
  | none => exact .none
  | some hab => exact hf _ _ hab

theorem exists_mem_iff {p : α → Prop} {q : β → Prop} {xs : List α} {ys : List β}
    (h : List.Forall₂ R xs ys) (hpq : ∀ a b, R a b → (p a ↔ q b)) :
    (∃ a ∈ xs, p a) ↔ ∃ b ∈ ys, q b := by
  induction h with
  | nil => simp
  | cons hab _ ih => rw [List.exists_mem_cons_iff, List.exists_mem_cons_iff, hpq _ _ hab, ih]

theorem forall₂_filter {p : α → Bool} {q : β → Bool} {xs : Array α} {ys : Array β}
    (h : List.Forall₂ R xs.toList ys.toList) (hpq : ∀ a b, R a b → p a = q b) :
    List.Forall₂ R (xs.filter p).toList (ys.filter q).toList := by
  rw [Array.toList_filter, Array.toList_filter]
  exact List.rel_filter (fun a b hab => by simp only [hpq a b hab]) h

theorem isEmpty_congr {xs : Array α} {ys : Array β} (h : List.Forall₂ R xs.toList ys.toList) :
    xs.isEmpty = ys.isEmpty := by
  rw [Array.isEmpty, Array.isEmpty, size_eq_of_forall₂ h]

/-- Whether there is one of two corresponding items is told from the other. -/
theorem Graph.Mirrors.eq_some_iff {g g' : Graph} (hg : g.Mirrors g' ρ) {s : Section}
    {x y : Option (Ref s)} {r r' : Ref s} (hxy : Option.Rel (ρ s) x y) (hr : ρ s r r') :
    x = some r ↔ y = some r' := by
  cases hxy with
  | none => simp
  | some h => simp only [Option.some.injEq, hg.unique h hr]

end Correspondence

/-! ## The runs -/

/-- The outputs hold the same and the layouts are alike. -/
structure Draft.Alike (g : Graph) (ρ : Pairing) (settled : List HeaderField) (d d' : Draft) :
    Prop where
  stream : d.stream.Alike d'.stream
  layout : d.layout.Alike g ρ settled d'.layout

namespace Writer

variable {α β : Type} {job job' : Job} {settled : List HeaderField} {d d' : Draft} {s : Section}

/-- The results are equal and the drafts are alike. -/
def Same (g : Graph) (ρ : Pairing) (settled : List HeaderField) (a b : α) (d d' : Draft) : Prop :=
  a = b ∧ d.Alike g ρ settled d'

/-- After equal results both runs go on with one and the same value. -/
theorem Coupled.next {γ : Type} {g : Graph} {v v' : Writer γ} {f : γ → Writer α} {f' : γ → Writer β}
    {Q : α → β → Draft → Draft → Prop} (h : Coupled job job' v v' (Same g ρ settled) d d')
    (hf : ∀ a e e', e.Alike g ρ settled e' → Coupled job job' (f a) (f' a) Q e e') :
    Coupled job job' (v >>= f) (v' >>= f') Q d d' :=
  h.bind fun a _ e e' hab => hab.1 ▸ hf a e e' hab.2

section Steps

variable (h : d.Alike job.graph ρ settled d')
include h

theorem coupled_same (a : α) :
    Coupled job job' (pure a) (pure a) (Same job.graph ρ settled) d d' :=
  coupled_pure ⟨rfl, h⟩

theorem coupled_stream {f f' : Stream → Stream}
    (hf : ∀ s s' : Stream, s.Alike s' → (f s).Alike (f' s')) :
    Coupled job job' (changeStream f) (changeStream f') (Same job.graph ρ settled) d d' :=
  coupled_changeStream ⟨rfl, hf _ _ h.stream, h.layout⟩

theorem coupled_layout {f f' : Layout → Layout} {settled' : List HeaderField}
    (hf : (f d.layout).Alike job.graph ρ settled' (f' d'.layout)) :
    Coupled job job' (changeLayout f) (changeLayout f') (Same job.graph ρ settled') d d' :=
  coupled_changeLayout ⟨rfl, h.stream, hf⟩

theorem coupled_position :
    Coupled job job' tell tell (Same job.graph ρ settled) d d' :=
  coupled_tell ⟨h.stream.position, h⟩

theorem coupled_taken {x x' : Except Error α} (hx : x = x') :
    Coupled job job' (ofExcept x) (ofExcept x') (Same job.graph ρ settled) d d' :=
  coupled_ofExcept (agree_of_eq hx) fun _ _ hab => ⟨hab, h⟩

omit h in
/-- An item is taken and put down at the cursor. -/
theorem coupled_put {x x' : Except Error Stream} (hx : Agree Stream.Alike x x')
    {f : Stream → Writer α} {f' : Stream → Writer β} {Q : α → β → Draft → Draft → Prop}
    (hf : ∀ item item', item.Alike item' → Coupled job job' (f item) (f' item') Q d d') :
    Coupled job job' (ofExcept x >>= f) (ofExcept x' >>= f') Q d d' :=
  (coupled_ofExcept (Q := fun item item' e e' => item.Alike item' ∧ e = d ∧ e' = d') hx
    fun _ _ hitem => ⟨hitem, rfl, rfl⟩).bind fun item item' _ _ ⟨hitem, he, he'⟩ =>
      he ▸ he' ▸ hf item item' hitem

theorem coupled_append {item item' : Stream} (hitem : item.Alike item') :
    Coupled job job' (changeStream (· ++ item)) (changeStream (· ++ item'))
      (Same job.graph ρ settled) d d' :=
  coupled_stream h fun _ _ hs => hs.append hitem

variable (hm : job.Mirrors job' ρ)
include hm

theorem coupled_place {o o' : Option UInt32} (ho : o = o') (k : Nat) (subject : Unplaced) :
    Coupled job job' (place o k subject) (place o' k subject) (Same job.graph ρ settled) d d' := by
  subst ho
  unfold place
  refine coupled_computesOffsets_bind ?_
  rw [hm.options]
  refine .ite (fun _ => ?_) fun _ => ?_
  · exact (coupled_stream h fun _ _ hs => hs.alignTo k).next fun _ d d' h =>
      (coupled_position h).next fun _ d d' h => coupled_taken h rfl
  · cases o with
    | none => exact coupled_throw
    | some o =>
      exact (coupled_stream h fun _ _ hs => hs.seek _).next fun _ d d' h => coupled_same h o

/-! ### Tables -/

theorem coupled_reserveTable (hs : s.rowSize? ≠ none) :
    Coupled job job' (reserveTable s) (reserveTable s) (Same job.graph ρ settled) d d' := by
  unfold reserveTable
  refine coupled_read_bind (coupled_computesOffsets_bind ?_)
  rw [hm.options, hm.graph.count]
  refine .ite (fun _ => ?_) fun _ => coupled_same h _
  refine (coupled_stream h fun _ _ hs => hs.alignTo 4).next fun _ d d' h =>
    (coupled_position h).next fun start d d' h => ?_
  refine (coupled_layout h ?_).next fun _ d d' h => coupled_stream h fun _ _ hs => hs.skip _
  refine Layout.Alike.setSectionOffset ?_ s _
  generalize job'.graph.count s = count
  induction count with
  | zero => exact h.layout
  | succ count ih =>
    rw [Nat.fold_succ, Nat.fold_succ]
    exact ih.setOffset hm.graph (hm.graph.rows s hs _) _

theorem coupled_fillTable (hs : s.rowSize? ≠ none) {row : Type} [Row row]
    {toRow : Layout → s.Content → Except Error row}
    (hrow : ∀ l l', Layout.Alike job.graph ρ settled l l' → ∀ x y, s.Mirrors ρ x y →
      toRow l x = toRow l' y) :
    Coupled job job' (fillTable s toRow) (fillTable s toRow) (Same job.graph ρ settled) d d' := by
  have hitems := hm.graph.items s hs
  unfold fillTable
  refine coupled_read_bind ?_
  dsimp only
  rw [isEmpty_congr hitems]
  refine .ite (fun _ => coupled_same h _) fun _ => coupled_get_bind ?_
  rw [h.layout.sectionOffset]
  cases d'.layout.sectionOffset s with
  | none => exact coupled_throw
  | some o =>
    refine (coupled_stream h fun _ _ hs => hs.seek _).next fun _ d d' h => ?_
    refine (coupled_forM hitems (fun x y d d' hxy h => ?_) h).mono fun _ _ _ _ h => ⟨rfl, h⟩
    refine coupled_get_bind ((coupled_taken h (hrow _ _ h.layout x y hxy)).next fun row d d' h =>
      (coupled_stream h fun _ _ hs => hs.write _).mono fun _ _ _ _ h => h.2)

theorem coupled_writeTable (hs : s.rowSize? ≠ none) {row : Type} [Row row]
    {toRow : s.Content → Except Error row}
    (hrow : ∀ x y, s.Mirrors ρ x y → toRow x = toRow y) :
    Coupled job job' (writeTable s fun _ => toRow) (writeTable s fun _ => toRow)
      (Same job.graph ρ settled) d d' := by
  unfold writeTable
  exact (coupled_reserveTable h hm hs).next fun _ d d' h =>
    coupled_fillTable h hm hs fun _ _ _ => hrow

theorem coupled_writeTables :
    Coupled job job' writeTables writeTables (Same job.graph ρ settled) d d' := by
  unfold writeTables
  exact (coupled_reserveTable h hm (by decide)).next fun _ d d' h =>
    (coupled_writeTable (s := .typeId) h hm (by decide) fun _ _ hxy => hxy ▸ rfl).next fun _ d d' h =>
    (coupled_reserveTable h hm (by decide)).next fun _ d d' h =>
    (coupled_writeTable (s := .fieldId) h hm (by decide) fun _ _ hxy => hxy ▸ rfl).next fun _ d d' h =>
    (coupled_writeTable (s := .methodId) h hm (by decide) fun _ _ hxy => hxy ▸ rfl).next fun _ d d' h =>
    (coupled_reserveTable h hm (by decide)).next fun _ d d' h =>
    (coupled_reserveTable h hm (by decide)).next fun _ d d' h =>
    coupled_writeTable (s := .methodHandle) h hm (by decide) fun _ _ hxy => hxy ▸ rfl

theorem coupled_fillTables :
    Coupled job job' fillTables fillTables (Same job.graph ρ settled) d d' := by
  unfold fillTables
  refine (coupled_fillTable h hm (by decide) fun l l' hl x y hxy => ?_).next fun _ d d' h =>
    (coupled_fillTable h hm (by decide) fun l l' hl x y hxy => ?_).next fun _ d d' h =>
    (coupled_fillTable h hm (by decide) fun l l' hl x y hxy => ?_).next fun _ d d' h =>
    coupled_fillTable h hm (by decide) fun l l' hl x y hxy => ?_
  · simp only [StringId.toRow, hl.offsetOf hxy]
  · obtain ⟨hshorty, hreturn, hparameters⟩ := hxy
    simp only [ProtoId.toRow, hshorty, hreturn, hl.offsetOrZero hparameters]
  · obtain ⟨htype, hflags, hsuper, hinterfaces, hfile, hnotes, hdata, hvalues⟩ := hxy
    simp only [ClassDef.toRow, htype, hflags, hsuper, hfile, hl.offsetOrZero hinterfaces,
      hl.offsetOrZero hnotes, hl.offsetOrZero hdata, hl.offsetOrZero hvalues]
  · simp only [CallSiteId.toRow, hl.offsetOf hxy]

/-! ### Data items -/

section Items

variable (hs : s.rowSize? = none) {encode : Layout → s.Content → Except Error Stream}
  (hencode : ∀ l x, encode l x = s.encode l x)
include hs hencode

theorem coupled_writeItem (first : UInt32) {r r' : Ref s} (hr : ρ s r r') :
    Coupled job job' (writeItem s encode first r) (writeItem s encode first r')
      (Same job.graph ρ settled) d d' := by
  have hcontent := hm.graph.content hs hr
  unfold writeItem
  refine coupled_read_bind ?_
  cases hx : job.graph.get? r with
  | none =>
    cases hy : job'.graph.get? r' with
    | none => exact coupled_same h _
    | some y =>
      rw [hx, hy] at hcontent
      cases hcontent
  | some x =>
    cases hy : job'.graph.get? r' with
    | none =>
      rw [hx, hy] at hcontent
      cases hcontent
    | some y =>
      rw [hx, hy] at hcontent
      obtain ⟨hxy⟩ := hcontent
      refine coupled_get_bind ((coupled_place h hm (h.layout.offset hr) _ _).next fun start d d' h =>
        coupled_get_bind (coupled_put ?_ fun item item' hitem => (coupled_append h hitem).next
          fun _ d d' h => (coupled_position h).next fun _ d d' h =>
          (coupled_taken h rfl).next fun size d d' h =>
          (coupled_layout h (h.layout.setPlace hm.graph hr _)).next fun _ d d' h =>
          coupled_same h _))
      rw [hencode, hencode]
      exact h.layout.encode hxy

theorem coupled_writeItems {refs refs' : Array (Ref s)}
    (hrefs : List.Forall₂ (ρ s) refs.toList refs'.toList) :
    Coupled job job' (writeItems s refs encode) (writeItems s refs' encode)
      (Same job.graph ρ settled) d d' := by
  unfold writeItems
  rw [isEmpty_congr hrefs]
  refine .ite (fun _ => coupled_same h _) fun _ => Coupled.next
    (coupled_foldlM hrefs (I := Same job.graph ρ settled) (fun b b' r r' d d' hr hb => ?_) ⟨rfl, h⟩)
    fun first d d' h => coupled_computesOffsets_bind (coupled_get_bind ?_)
  · obtain ⟨rfl, h⟩ := hb
    exact coupled_writeItem h hm hs hencode b hr
  · rw [h.layout.sectionOffset, hm.options]
    exact .ite (fun _ => coupled_layout h (h.layout.setSectionOffset s _)) fun _ => coupled_same h _

theorem coupled_writeSection :
    Coupled job job' (writeSection s encode) (writeSection s encode)
      (Same job.graph ρ settled) d d' := by
  unfold writeSection
  exact coupled_read_bind (coupled_writeItems h hm hs hencode (hm.graph.order s hs))

end Items

/-! ### Bodies -/

/-- The references are pairwise those of corresponding items. -/
def Paired (g : Graph) (ρ : Pairing) (settled : List HeaderField) {s : Section}
    (refs refs' : Array (Ref s)) (d d' : Draft) : Prop :=
  List.Forall₂ (ρ s) refs.toList refs'.toList ∧ d.Alike g ρ settled d'

theorem coupled_codeRefs :
    Coupled job job' codeRefs codeRefs (Paired job.graph ρ settled) d d' := by
  unfold codeRefs
  exact coupled_read_bind (coupled_get_bind (coupled_pure
    ⟨forall₂_filter (hm.graph.order .codeItem rfl) fun r r' hr => by
      rw [hm.live hr, h.layout.hasOffset hr], h⟩))

theorem coupled_debugInfoRefs :
    Coupled job job' debugInfoRefs debugInfoRefs (Paired job.graph ρ settled) d d' := by
  unfold debugInfoRefs
  refine coupled_read_bind ((coupled_codeRefs h hm).bind fun refs refs' d d' ⟨hrefs, h⟩ =>
    coupled_get_bind (coupled_pure
      ⟨forall₂_filter (hm.graph.order .debugInfo rfl) fun r r' hr => ?_, h⟩))
  rw [h.layout.hasOffset hr]
  congr 1
  have hiff (c c' : Ref .codeItem) (hc : ρ _ c c') :
      (job.graph.get? c).bind CodeItem.debugInfo = some r ↔
        (job'.graph.get? c').bind CodeItem.debugInfo = some r' :=
    hm.graph.eq_some_iff (rel_bind (hm.graph.content rfl hc) fun _ _ hcode => hcode.debugInfo) hr
  refine Bool.eq_iff_iff.mpr (.trans (Graph.contains_mark_array
    (fun c => (job.graph.get? c).bind CodeItem.debugInfo) (fun used c => ?_) refs)
    (.trans (exists_mem_iff hrefs hiff) (Graph.contains_mark_array
      (fun c => (job'.graph.get? c).bind CodeItem.debugInfo) (fun used c => ?_) refs').symm))
  · cases (job.graph.get? c).bind CodeItem.debugInfo <;> rfl
  · cases (job'.graph.get? c).bind CodeItem.debugInfo <;> rfl

theorem coupled_reserveBody (first : Option UInt32) {r r' : Ref .codeItem} (hr : ρ _ r r') :
    Coupled job job' (reserveBody first r) (reserveBody first r')
      (Same job.graph ρ settled) d d' := by
  have hcontent := hm.graph.content rfl hr
  unfold reserveBody
  refine coupled_read_bind ?_
  generalize job.graph.get? r = x, job'.graph.get? r' = y at hcontent
  cases hcontent with
  | none => exact coupled_same h _
  | some hcode =>
    refine coupled_put (hcode.encode 0) fun item item' hitem => ?_
    rw [hitem.length]
    exact (coupled_place h hm rfl _ _).next fun start d d' h =>
      (coupled_stream h fun _ _ hs => hs.skip _).next fun _ d d' h =>
      (coupled_layout h (h.layout.setOffset hm.graph hr _)).next fun _ d d' h =>
      (coupled_taken h rfl).next fun size d d' h =>
      (coupled_layout h (h.layout.setSize hm.graph hr size)).next fun _ d d' h => coupled_same h _

theorem coupled_reserveCode :
    Coupled job job' reserveCode reserveCode (Same job.graph ρ settled) d d' := by
  unfold reserveCode
  refine coupled_computesOffsets_bind ?_
  rw [hm.options]
  refine .ite (fun _ => ?_) fun _ => coupled_same h _
  refine (coupled_codeRefs h hm).bind fun refs refs' d d' ⟨hrefs, h⟩ => Coupled.next
    (coupled_foldlM hrefs (I := Same job.graph ρ settled) (fun b b' r r' d d' hr hb =>
      hb.1 ▸ coupled_reserveBody hb.2 hm b hr) ⟨rfl, h⟩) fun first d d' h => ?_
  cases first with
  | none => exact coupled_same h _
  | some first => exact coupled_layout h (h.layout.setSectionOffset _ _)

theorem coupled_writeBody (first : UInt32) {r r' : Ref .codeItem} (hr : ρ _ r r') :
    Coupled job job' (writeBody first r) (writeBody first r') (Same job.graph ρ settled) d d' := by
  have hcontent := hm.graph.content rfl hr
  unfold writeBody
  refine coupled_read_bind ?_
  generalize job.graph.get? r = x, job'.graph.get? r' = y at hcontent
  cases hcontent with
  | none => exact coupled_same h _
  | some hcode =>
    exact coupled_get_bind ((coupled_taken h (h.layout.offsetOf hr)).next fun o d₁ d₁' h₁ =>
      (coupled_taken h₁ (h.layout.offsetOrZero hcode.debugInfo)).next fun _ d d' h =>
      coupled_put (hcode.encode _) fun item item' hitem =>
      (coupled_stream h fun _ _ hs => (hs.seek _).append hitem).next fun _ d d' h =>
      (coupled_position h).next fun _ d d' h => (coupled_taken h rfl).next fun size d d' h =>
      (coupled_layout h (h.layout.setSize hm.graph hr size)).next fun _ d d' h => coupled_same h _)

theorem coupled_writeCode :
    Coupled job job' writeCode writeCode (Same job.graph ρ settled) d d' := by
  unfold writeCode
  refine (coupled_codeRefs h hm).bind fun refs refs' d d' ⟨hrefs, h⟩ =>
    (coupled_position h).next fun resume d d' h => Coupled.next
    (coupled_foldlM hrefs (I := Same job.graph ρ settled) (fun b b' r r' d d' hr hb =>
      hb.1 ▸ coupled_writeBody hb.2 hm b hr) ⟨rfl, h⟩) fun first d d' h => coupled_get_bind ?_
  have hresume (d d' : Draft) (h : d.Alike job.graph ρ settled d') :
      Coupled job job' (do if ← computesOffsets then changeStream fun stream => stream.seek resume)
        (do if ← computesOffsets then changeStream fun stream => stream.seek resume)
        (Same job.graph ρ settled) d d' := by
    refine coupled_computesOffsets_bind ?_
    rw [hm.options]
    exact .ite (fun _ => coupled_stream h fun _ _ hs => hs.seek _) fun _ => coupled_same h _
  rw [h.layout.sectionOffset, isEmpty_congr hrefs]
  refine .ite (fun _ => ?_) fun _ => hresume d d' h
  exact (coupled_layout h (h.layout.setSectionOffset _ _)).next fun _ => hresume

/-! ### The data section -/

theorem coupled_writeHiddenapi :
    Coupled job job' writeHiddenapi writeHiddenapi (Same job.graph ρ settled) d d' := by
  unfold writeHiddenapi
  refine coupled_read_bind ?_
  rw [← hm.graph.hiddenapi]
  cases hflags : job.graph.hiddenapi with
  | none => exact coupled_same h _
  | some flags =>
    refine coupled_get_bind ((coupled_place h hm h.layout.hiddenapiOffset _ _).next
      fun start d₁ d₁' h₁ => (coupled_taken h₁ (h.layout.hiddenapiItem flags hflags)).next
      fun item d d' h => (coupled_append h (Stream.Alike.refl item)).next fun _ d d' h =>
      (coupled_position h).next fun _ d d' h => (coupled_taken h rfl).next fun size d d' h =>
      coupled_layout h ?_)
    refine ⟨h.layout.offset, h.layout.sectionOffset, rfl, fun _ _ => rfl, fun f hf => ?_⟩
    have := h.layout.value f hf
    cases f <;> exact this

theorem coupled_writeData :
    Coupled job job' writeData writeData (Same job.graph ρ settled) d d' := by
  unfold writeData
  exact (coupled_reserveCode h hm).next fun _ d d' h => (coupled_debugInfoRefs h hm).bind
    fun refs refs' d d' ⟨hrefs, h⟩ =>
    (coupled_writeItems h hm rfl (fun _ _ => rfl) hrefs).next fun _ d d' h =>
    (coupled_writeCode h hm).next fun _ d d' h =>
    (coupled_writeSection (s := .encodedArray) h hm rfl fun _ _ => rfl).next fun _ d d' h =>
    (coupled_writeSection (s := .annotationItem) h hm rfl fun _ _ => rfl).next fun _ d d' h =>
    (coupled_writeSection (s := .annotationSet) h hm rfl fun _ _ => rfl).next fun _ d d' h =>
    (coupled_writeSection (s := .annotationSetRefList) h hm rfl fun _ _ => rfl).next fun _ d d' h =>
    (coupled_writeSection (s := .annotationsDirectory) h hm rfl fun _ _ => rfl).next fun _ d d' h =>
    (coupled_writeSection (s := .typeList) h hm rfl fun _ _ => rfl).next fun _ d d' h =>
    (coupled_writeSection (s := .classData) h hm rfl fun _ _ => rfl).next fun _ d d' h =>
    (coupled_writeSection (s := .stringData) h hm rfl fun _ _ => rfl).next fun _ d d' h =>
    coupled_writeHiddenapi h hm

/-! ### The image -/

section Computed

variable (hcomputes : job.options.computeOffsets = true)
include hcomputes

omit h in
/-- The branch is taken that computes the layout. -/
theorem coupled_computed {α β : Type} {Q : α → β → Draft → Draft → Prop} {f : Bool → Writer α}
    {f' : Bool → Writer β} {d d' : Draft} (hrun : Coupled job job' (f true) (f' true) Q d d') :
    Coupled job job' (computesOffsets >>= f) (computesOffsets >>= f') Q d d' := by
  refine coupled_computesOffsets_bind ?_
  rwa [← hm.options, hcomputes]

theorem coupled_openData :
    Coupled job job' openData openData (Same job.graph ρ (.dataOffset :: settled)) d d' := by
  unfold openData
  refine coupled_computed hm hcomputes ?_
  exact (coupled_stream h fun _ _ hs => hs.alignTo _).next fun _ d d' h =>
    (coupled_position h).next fun _ d d' h => (coupled_taken h rfl).next fun start d d' h =>
    coupled_layout h (h.layout.settle .dataOffset start)

omit h hcomputes in
/-- The map list names the sections of a layout and itself. -/
theorem mapListOf_congr {l l' : Layout} (h : l.Alike job.graph ρ settled l')
    (hmap : .mapOffset ∈ settled) : mapListOf job.graph l = mapListOf job'.graph l' := by
  have hplaced (s : Section) (hs : s.rowSize? = none) :
      placedCount job.graph l s = placedCount job'.graph l' s :=
    size_eq_of_forall₂ (forall₂_filter (hm.graph.order s hs) fun _ _ hr => h.hasOffset hr)
  have hsection (s : Section) :
      MapCandidate.ofSection job.graph l s = MapCandidate.ofSection job'.graph l' s := by
    simp only [MapCandidate.ofSection, hm.graph.count, h.sectionOffset]
    congr 1
    split
    · exact hplaced .codeItem rfl
    · exact hplaced .debugInfo rfl
    · rfl
  have hoffset : l.mapOffset = l'.mapOffset := h.value .mapOffset hmap
  have hcandidates : mapCandidates job.graph l = mapCandidates job'.graph l' := by
    simp only [mapCandidates, funext hsection, hoffset, h.hiddenapiOffset, hm.graph.hiddenapi]
  rw [mapListOf, hcandidates, mapListOf]

theorem coupled_writeMapList (hopened : .dataOffset ∈ settled) :
    Coupled job job' writeMapList writeMapList
      (Same job.graph ρ (.dataSize :: .mapOffset :: settled)) d d' := by
  unfold writeMapList
  refine coupled_computed hm hcomputes ?_
  simp only [if_true]
  have hend (s s' : Stream) (hs : s.Alike s') : ((s.seek s.length).alignTo dataAlignment).Alike
      ((s'.seek s'.length).alignTo dataAlignment) := by
    rw [hs.length]
    exact (hs.seek _).alignTo _
  refine (coupled_stream h hend).next fun _ d d' h => (coupled_position h).next fun _ d d' h =>
    (coupled_taken h rfl).next fun offset d d' h =>
    (coupled_layout h (h.layout.settle .mapOffset offset)).next fun _ d d' h =>
    coupled_read_bind (coupled_get_bind ?_)
  rw [mapListOf_congr hm h.layout List.mem_cons_self]
  refine (coupled_taken h rfl).next fun list d d' h => (coupled_taken h rfl).next fun _ d d' h =>
    (coupled_stream h fun _ _ hs => hs.write _).next fun _ d d' h =>
    coupled_computed hm hcomputes ?_
  simp only [if_true]
  refine (coupled_stream h fun _ _ hs => hs.alignTo _).next fun _ d d' h =>
    (coupled_position h).next fun _ d d' h =>
    (coupled_taken h rfl).next fun stop d d' h => coupled_layout h ?_
  have hstart : d.layout.dataOffset = d'.layout.dataOffset :=
    h.layout.value .dataOffset (List.mem_cons_of_mem _ hopened)
  change Layout.Alike _ _ _ (HeaderField.dataSize.set (stop - d.layout.dataOffset) d.layout)
    (HeaderField.dataSize.set (stop - d'.layout.dataOffset) d'.layout)
  rw [hstart]
  exact h.layout.settle .dataSize _

theorem coupled_writeLinkData :
    Coupled job job' writeLinkData writeLinkData
      (Same job.graph ρ (.linkOffset :: settled)) d d' := by
  unfold writeLinkData
  refine coupled_read_bind ?_
  rw [← hm.graph.linkData]
  refine .ite (fun _ => ?_) fun _ => ?_
  · refine coupled_computed hm hcomputes ?_
    simp only [if_true]
    exact (coupled_layout h (h.layout.settle .linkOffset 0)).next fun _ d d' h => coupled_same h _
  · refine coupled_computed hm hcomputes ?_
    simp only [if_true]
    exact (coupled_position h).next fun _ d d' h => (coupled_taken h rfl).next fun o d d' h =>
      (coupled_layout h (h.layout.settle .linkOffset o)).next fun _ d d' h =>
      coupled_stream h fun _ _ hs => hs.write _

theorem coupled_closeImage :
    Coupled job job' closeImage closeImage (Same job.graph ρ (.fileSize :: settled)) d d' := by
  unfold closeImage
  refine coupled_get_bind ?_
  rw [h.stream.length]
  refine coupled_computed hm hcomputes ?_
  simp only [if_true]
  refine (coupled_taken h rfl).next fun size d d' h =>
    (coupled_layout h (h.layout.settle .fileSize size)).next fun _ d d' h => coupled_get_bind ?_
  have hsize : d.layout.fileSize = d'.layout.fileSize :=
    h.layout.value .fileSize List.mem_cons_self
  rw [hsize, h.stream.contents]
  exact coupled_same h _

end Computed

omit h in
/-- Layouts that agree in all fields but the checksum and the signature have headers that do. -/
theorem headerOf_congr {l l' : Layout} (h : l.Alike job.graph ρ settled l')
    (hsettled : ∀ f, f ∈ settled) :
    headerOf job'.graph l' =
      (fun header => header.stamp l'.checksum l'.signature) <$> headerOf job.graph l := by
  have hrange (s : Section) : tableRange job.graph l s = tableRange job'.graph l' s := by
    rw [tableRange, h.sectionOffset, hm.graph.count, tableRange]
  have hvalue (f : HeaderField) : f.value l = f.value l' := h.value f (hsettled f)
  have hdata : l.dataOffset = l'.dataOffset := hvalue .dataOffset
  have hmap : l.mapOffset = l'.mapOffset := hvalue .mapOffset
  have hdataSize : l.dataSize = l'.dataSize := hvalue .dataSize
  have hlink : l.linkOffset = l'.linkOffset := hvalue .linkOffset
  have hsize : l.fileSize = l'.fileSize := hvalue .fileSize
  simp only [headerOf, hrange, hdata, hmap, hdataSize, hlink, hsize, map_bind, map_pure,
    FileHeader.stamp, hm.graph.magic, hm.graph.endianTag, hm.graph.linkData]

/-- The header is stamped over whatever checksum and signature were recorded. -/
theorem coupled_stampHeader {image : Bytes} (hoptions : job.options = .relayout)
    (hsettled : ∀ f, f ∈ settled) :
    Coupled job job' (stampHeader image) (stampHeader image) (fun a b _ _ => a = b) d d' := by
  unfold stampHeader
  refine coupled_read_bind (coupled_read_bind (coupled_get_bind ?_))
  rw [headerOf_congr hm h.layout hsettled, ← hm.options, hoptions]
  cases headerOf job.graph d.layout with
  | error e => exact coupled_throw
  | ok header =>
    change Coupled _ _ (ofExcept (header.store image) >>= _)
      (ofExcept ((header.stamp d'.layout.checksum d'.layout.signature).store image) >>= _) _ _ _
    by_cases hsize : image.size < FileHeader.byteSize
    · have hstore (header : FileHeader) : header.store image = .error .outOfBounds := if_pos hsize
      rw [hstore, hstore]
      exact coupled_throw
    · have hstore (header : FileHeader) :
          header.store image = .ok (image.overlay 0 header.encode) := if_neg hsize
      rw [hstore, hstore]
      have hfits := Nat.not_lt.mp hsize
      refine coupled_ok_bind ?_
      simp only [WriteOptions.relayout, if_true]
      rw [imageSignature_stamp hfits, imageChecksum_stamp hfits, FileHeader.overlay_stamp hfits,
        FileHeader.overlay_stamp hfits]
      exact (coupled_changeLayout (Q := fun _ _ _ _ => True) trivial).bind fun _ _ _ _ _ =>
        coupled_pure rfl

end Steps

theorem coupled_writeImage (hm : job.Mirrors job' ρ) (hoptions : job.options = .relayout)
    {l l' : Layout} (hsize : ∀ flags, job.graph.hiddenapi = some flags →
      flags.encode l.hiddenapi.size = flags.encode l'.hiddenapi.size) :
    Coupled job job' writeImage writeImage (fun a b _ _ => a = b) ⟨∅, l⟩ ⟨∅, l'⟩ := by
  have hcomputes : job.options.computeOffsets = true := by rw [hoptions]; rfl
  have hclear : Draft.Alike job.graph ρ [] ⟨∅, l.clearOffsets⟩ ⟨∅, l'.clearOffsets⟩ :=
    ⟨.refl _, Layout.alike_clearOffsets hsize⟩
  unfold writeImage
  refine coupled_computesOffsets_bind ?_
  rw [← hm.options]
  simp only [hcomputes, if_true]
  exact (coupled_changeLayout (Q := Same job.graph ρ []) ⟨rfl, hclear⟩).next fun _ d d' h =>
    (coupled_stream h fun _ _ hs => hs.skip _).next fun _ d d' h =>
    (coupled_writeTables h hm).next fun _ d d' h =>
    (coupled_openData h hm hcomputes).next fun _ d d' h =>
    (coupled_writeData h hm).next fun _ d d' h => (coupled_fillTables h hm).next fun _ d d' h =>
    (coupled_writeMapList h hm hcomputes List.mem_cons_self).next fun _ d d' h =>
    (coupled_writeLinkData h hm hcomputes).next fun _ d d' h =>
    (coupled_closeImage h hm hcomputes).next fun image d d' h =>
    coupled_stampHeader h hm hoptions fun f => by cases f <;> simp

end Writer

namespace Graph

variable {g g' : Graph} {l l' : Layout}

/-- What is told of a graph that is written is what is told of the run. -/
theorem fst_write (options : WriteOptions) :
    (g.write options l).1 = Writer.writeImage.outcome ⟨g, options, g.liveCode⟩ ⟨∅, l⟩ := by
  unfold write Writer.outcome
  cases Writer.writeImage ⟨g, options, g.liveCode⟩ ⟨∅, l⟩ <;> rfl

/-- Laying out two graphs that mirror each other, the same image or the same error comes out, as
long as the hidden-API section is not made to take more room in one than in the other. -/
theorem Mirrors.write_relayout (hg : g.Mirrors g' ρ)
    (hlive : ∀ {r r' : Ref .codeItem}, ρ _ r r' →
      g.liveCode.contains r.slot = g'.liveCode.contains r'.slot)
    (hsize : ∀ flags, g.hiddenapi = some flags →
      flags.encode l.hiddenapi.size = flags.encode l'.hiddenapi.size) :
    (g.write .relayout l).1 = (g'.write .relayout l').1 := by
  rw [fst_write, fst_write]
  have hm : Job.Mirrors (.relayout g) (.relayout g') ρ := ⟨hg, rfl, hlive⟩
  exact (Writer.coupled_writeImage hm rfl hsize).outcome_eq fun _ _ _ _ h => h

end Graph

end DexGraph
