import DexGraph.Dex
import DexGraph.Proofs.Graph.Coherence
import DexGraph.Proofs.Writing.Coupled
import DexGraph.Proofs.Writing.Evaluation
import DexGraph.Proofs.Writing.Retrace
import DexGraph.Proofs.Writing.StoredBodies

/-!
# Writing the bodies in another order

A write that keeps offsets stores every body where the layout has it, so the order of the bodies
only decides which of them is stored last. If no two bodies lie one over the other this makes no
difference: the same image comes out (`Graph.write_reorder_code`). The two runs are compared step by
step. Their drafts are `Even` when they agree in all but the cursor, which every step moves before
it stores anything; only the loop over the bodies, which takes them in different orders, is looked
at as a whole. `Dex.passes_frame` puts this together with what collecting cross references and
laying code out in class order leave alone.
-/

namespace DexGraph

/-! ## Drafts that agree in all but the cursor -/

/-- The drafts agree in all but the cursor. -/
structure Draft.Even (d d' : Draft) : Prop where
  layout : d.layout = d'.layout
  stream : ∀ n, (d.stream.seek n).Alike (d'.stream.seek n)

/-- The drafts agree, and so do their cursors. -/
structure Draft.Level (d d' : Draft) : Prop where
  layout : d.layout = d'.layout
  stream : d.stream.Alike d'.stream

theorem Draft.Level.even {d d' : Draft} (h : d.Level d') : d.Even d' :=
  ⟨h.layout, fun n => h.stream.seek n⟩

/-- The same job with the named bodies put first. -/
def Job.reorderCode (job : Job) (named : Array (Ref .codeItem)) : Job :=
  { job with graph := job.graph.reorder .codeItem named }

namespace Graph

variable (g : Graph) (named : Array (Ref .codeItem)) {s : Section}

theorem entities_reorder_code (hs : s ≠ .codeItem) :
    (g.reorder .codeItem named).entities s = g.entities s :=
  g.entities_setEntities_of_ne _ hs.symm

theorem get?_reorder_code (r : Ref s) : (g.reorder .codeItem named).get? r = g.get? r := by
  cases s <;> rfl

theorem stores_reorder_code {l : Layout} {r : Ref .codeItem} {b : StoredBody} :
    (g.reorder .codeItem named).Stores l r b ↔ g.Stores l r b :=
  ⟨fun h => ⟨h.offset, h.item, h.size⟩, fun h => ⟨h.offset, h.item, h.size⟩⟩

end Graph

/-- The map list tells how many bodies there are, but not in which order. -/
theorem mapListOf_reorder_code {g : Graph} (hg : g.Sound) (named : Array (Ref .codeItem))
    (l : Layout) : mapListOf (g.reorder .codeItem named) l = mapListOf g l := by
  have hplaced : placedCount (g.reorder .codeItem named) l .codeItem =
      placedCount g l .codeItem := by
    have hlength := ((Collection.order_reorder_perm (hg.coherent .codeItem) named).filter
      fun r => (l.place r).hasOffset).length_eq
    rwa [← Array.toList_filter, ← Array.toList_filter, Array.length_toList,
      Array.length_toList] at hlength
  have hsection (s : Section) : MapCandidate.ofSection (g.reorder .codeItem named) l s =
      MapCandidate.ofSection g l s := by
    cases s with
    | codeItem =>
      change MapCandidate.mk _ (placedCount _ l .codeItem) _ = _
      rw [hplaced]
      rfl
    | _ => rfl
  unfold mapListOf mapCandidates
  simp only [funext hsection]
  rfl

namespace Writer

variable {α β : Type} {job : Job} {named : Array (Ref .codeItem)} {d d' : Draft} {s : Section}

/-- The results are equal and the drafts agree in all but the cursor. -/
def Evenly (a b : α) (d d' : Draft) : Prop :=
  a = b ∧ d.Even d'

/-- The results and the drafts are equal up to the way in which the output came about. -/
def Levelly (a b : α) (d d' : Draft) : Prop :=
  a = b ∧ d.Level d'

section Even

variable (h : d.Even d')
include h

theorem coupled_even (a : α) :
    Coupled job (job.reorderCode named) (pure a) (pure a) Evenly d d' :=
  coupled_pure ⟨rfl, h⟩

theorem coupled_even_taken (x : Except Error α) :
    Coupled job (job.reorderCode named) (ofExcept x) (ofExcept x) Evenly d d' :=
  coupled_ofExcept (agree_of_eq rfl) fun _ _ hab => ⟨hab, h⟩

theorem coupled_even_layout (f : Layout → Layout) :
    Coupled job (job.reorderCode named) (changeLayout f) (changeLayout f) Evenly d d' :=
  coupled_changeLayout ⟨rfl, congrArg f h.layout, h.stream⟩

/-- Wherever the cursors stood, they agree when both have been moved. -/
theorem coupled_seek (n : Nat) :
    Coupled job (job.reorderCode named) (changeStream fun stream => stream.seek n)
      (changeStream fun stream => stream.seek n) Levelly d d' :=
  coupled_changeStream ⟨rfl, h.layout, h.stream n⟩

end Even

section Level

variable (h : d.Level d')
include h

theorem coupled_level_taken (x : Except Error α) :
    Coupled job (job.reorderCode named) (ofExcept x) (ofExcept x) Levelly d d' :=
  coupled_ofExcept (agree_of_eq rfl) fun _ _ hab => ⟨hab, h⟩

theorem coupled_level_tell :
    Coupled job (job.reorderCode named) tell tell Levelly d d' :=
  coupled_tell ⟨h.stream.position, h⟩

theorem coupled_level_layout (f : Layout → Layout) :
    Coupled job (job.reorderCode named) (changeLayout f) (changeLayout f) Levelly d d' :=
  coupled_changeLayout ⟨rfl, congrArg f h.layout, h.stream⟩

theorem coupled_level_append (item : Stream) :
    Coupled job (job.reorderCode named) (changeStream (· ++ item)) (changeStream (· ++ item))
      Levelly d d' :=
  coupled_changeStream ⟨rfl, h.layout, h.stream.append (.refl item)⟩

theorem coupled_level_write (bytes : Bytes) :
    Coupled job (job.reorderCode named) (changeStream fun stream => stream.write bytes)
      (changeStream fun stream => stream.write bytes) Levelly d d' :=
  coupled_changeStream ⟨rfl, h.layout, h.stream.write bytes⟩

end Level

section Steps

variable (hkeep : job.options.computeOffsets = false)
include hkeep

/-- The branch is taken that keeps the layout. -/
theorem coupled_keeping {f f' : Bool → Writer α} {Q : α → α → Draft → Draft → Prop}
    (h : Coupled job (job.reorderCode named) (f false) (f' false) Q d d') :
    Coupled job (job.reorderCode named) (computesOffsets >>= f) (computesOffsets >>= f')
      Q d d' := by
  refine coupled_computesOffsets_bind ?_
  change Coupled _ _ (f job.options.computeOffsets) (f' job.options.computeOffsets) _ _ _
  rwa [hkeep]

variable (h : d.Even d')
include h

theorem coupled_even_place (o : Option UInt32) (k : Nat) (subject : Unplaced) :
    Coupled job (job.reorderCode named) (place o k subject) (place o k subject) Levelly d d' := by
  unfold place
  refine coupled_keeping hkeep ?_
  cases o with
  | none => exact coupled_throw
  | some o => exact (coupled_seek h _).onward fun _ _ _ h => coupled_pure ⟨rfl, h⟩

/-! ### Tables -/

theorem coupled_even_reserveTable :
    Coupled job (job.reorderCode named) (reserveTable s) (reserveTable s) Evenly d d' := by
  unfold reserveTable
  exact coupled_read_bind (coupled_keeping hkeep (coupled_even h _))

omit hkeep in
theorem coupled_even_fillTable (hs : s ≠ .codeItem) {row : Type} [Row row]
    (toRow : Layout → s.Content → Except Error row) :
    Coupled job (job.reorderCode named) (fillTable s toRow) (fillTable s toRow) Evenly d d' := by
  have hentities : (job.reorderCode named).graph.entities s = job.graph.entities s :=
    job.graph.entities_reorder_code named hs
  unfold fillTable
  refine coupled_read_bind ?_
  dsimp only
  rw [hentities]
  refine .ite (fun _ => coupled_even h _) fun _ => coupled_get_bind ?_
  rw [h.layout]
  cases d'.layout.sectionOffset s with
  | none => exact coupled_throw
  | some o =>
    refine (coupled_seek h _).onward fun _ e e' h => (coupled_forM (I := Draft.Level)
      (forall₂_refl (fun _ => rfl) _) (fun x x' e e' hx h => ?_) h).mono
        fun _ _ _ _ h => ⟨rfl, h.even⟩
    subst hx
    refine coupled_get_bind ?_
    rw [h.layout]
    exact (coupled_level_taken h _).onward fun row e e' h =>
      (coupled_level_write h _).mono fun _ _ _ _ h => h.2

theorem coupled_even_writeTable (hs : s ≠ .codeItem) {row : Type} [Row row]
    (toRow : Layout → s.Content → Except Error row) :
    Coupled job (job.reorderCode named) (writeTable s toRow) (writeTable s toRow) Evenly d d' :=
  (coupled_even_reserveTable hkeep h).onward fun _ _ _ h => coupled_even_fillTable h hs toRow

theorem coupled_even_writeTables :
    Coupled job (job.reorderCode named) writeTables writeTables Evenly d d' :=
  (coupled_even_reserveTable hkeep h).onward fun _ _ _ h =>
    (coupled_even_writeTable hkeep h (by decide) _).onward fun _ _ _ h =>
    (coupled_even_reserveTable hkeep h).onward fun _ _ _ h =>
    (coupled_even_writeTable hkeep h (by decide) _).onward fun _ _ _ h =>
    (coupled_even_writeTable hkeep h (by decide) _).onward fun _ _ _ h =>
    (coupled_even_reserveTable hkeep h).onward fun _ _ _ h =>
    (coupled_even_reserveTable hkeep h).onward fun _ _ _ h =>
    coupled_even_writeTable hkeep h (by decide) _

omit hkeep in
theorem coupled_even_fillTables :
    Coupled job (job.reorderCode named) fillTables fillTables Evenly d d' :=
  (coupled_even_fillTable h (by decide) _).onward fun _ _ _ h =>
    (coupled_even_fillTable h (by decide) _).onward fun _ _ _ h =>
    (coupled_even_fillTable h (by decide) _).onward fun _ _ _ h =>
    coupled_even_fillTable h (by decide) _

/-! ### Data items -/

theorem coupled_even_writeItem (encode : Layout → s.Content → Except Error Stream)
    (first : UInt32) (r : Ref s) :
    Coupled job (job.reorderCode named) (writeItem s encode first r) (writeItem s encode first r)
      Evenly d d' := by
  unfold writeItem
  refine coupled_read_bind ?_
  simp only [Job.reorderCode, Graph.get?_reorder_code]
  cases job.graph.get? r with
  | none => exact coupled_even h _
  | some x =>
    refine coupled_get_bind ?_
    rw [h.layout]
    refine (coupled_even_place hkeep h _ _ _).onward fun start e e' h => coupled_get_bind ?_
    rw [h.layout]
    exact (coupled_level_taken h _).onward fun item _ _ h =>
      (coupled_level_append h item).onward fun _ _ _ h => (coupled_level_tell h).onward
      fun _ _ _ h => (coupled_level_taken h _).onward fun size _ _ h =>
      (coupled_level_layout h _).onward fun _ _ _ h => coupled_pure ⟨rfl, h.even⟩

theorem coupled_even_writeItems (refs : Array (Ref s))
    (encode : Layout → s.Content → Except Error Stream) :
    Coupled job (job.reorderCode named) (writeItems s refs encode) (writeItems s refs encode)
      Evenly d d' := by
  unfold writeItems
  refine .ite (fun _ => coupled_even h _) fun _ => Coupled.onward (R := Draft.Even)
    (coupled_foldlM (R := Eq) (forall₂_refl (fun _ => rfl) _)
      (fun b b' r r' e e' hr hb => ?_) ⟨rfl, h⟩) fun first e e' h => ?_
  · obtain ⟨rfl, h⟩ := hb
    subst hr
    exact coupled_even_writeItem hkeep h encode b r
  · refine coupled_keeping hkeep (coupled_get_bind ?_)
    rw [h.layout]
    exact .ite (fun _ => coupled_even_layout h _) fun _ => coupled_even h _

theorem coupled_even_writeSection (hs : s ≠ .codeItem)
    (encode : Layout → s.Content → Except Error Stream) :
    Coupled job (job.reorderCode named) (writeSection s encode) (writeSection s encode)
      Evenly d d' := by
  unfold writeSection
  refine coupled_read_bind ?_
  simp only [Job.reorderCode, Graph.entities_reorder_code _ _ hs]
  exact coupled_even_writeItems hkeep h _ encode

theorem coupled_even_writeHiddenapi :
    Coupled job (job.reorderCode named) writeHiddenapi writeHiddenapi Evenly d d' := by
  unfold writeHiddenapi
  have hhiddenapi : (job.reorderCode named).graph.hiddenapi = job.graph.hiddenapi := rfl
  refine coupled_read_bind ?_
  rw [hhiddenapi]
  cases job.graph.hiddenapi with
  | none => exact coupled_even h _
  | some flags =>
    refine coupled_get_bind ?_
    simp only [h.layout]
    exact (coupled_even_place hkeep h _ _ _).onward fun start _ _ h =>
      (coupled_level_taken h _).onward fun item _ _ h => (coupled_level_append h item).onward
      fun _ _ _ h => (coupled_level_tell h).onward fun _ _ _ h =>
      (coupled_level_taken h _).onward fun size _ _ h =>
      (coupled_level_layout h _).mono fun _ _ _ _ h => ⟨h.1, h.2.even⟩

/-! ### Bodies -/

section Bodies

variable (hg : job.graph.Sound)
include hg

omit hkeep in
/-- The same bodies are written, in different orders. -/
theorem coupled_codeRefs_perm :
    Coupled job (job.reorderCode named) codeRefs codeRefs (fun refs refs' e e' =>
      (refs.toList.Perm refs'.toList ∧ ∀ r ∈ refs, job.graph.Has .codeItem r) ∧
        e = d ∧ e' = d') d d' := by
  refine coupled_read_bind (coupled_get_bind (coupled_pure ⟨⟨?_, fun r hr => ?_⟩, rfl, rfl⟩))
  · rw [Array.toList_filter, Array.toList_filter, h.layout]
    exact (Collection.order_reorder_perm (hg.coherent .codeItem) named).symm.filter _
  · exact hg.mem_order.mp (Array.mem_filter.mp hr).1

omit hkeep in
/-- The same debug info is written, in the same order. -/
theorem coupled_debugInfoRefs_eq :
    Coupled job (job.reorderCode named) debugInfoRefs debugInfoRefs Evenly d d' := by
  unfold debugInfoRefs
  refine coupled_read_bind ((coupled_codeRefs_perm h hg).bind ?_)
  rintro refs refs' d d' ⟨⟨hperm, -⟩, rfl, rfl⟩
  refine coupled_get_bind (coupled_pure ⟨?_, h⟩)
  rw [h.layout]
  change job.graph.debugInfos.order.filter _ = job.graph.debugInfos.order.filter _
  refine congrArg (job.graph.debugInfos.order.filter ·) (funext fun r => ?_)
  congr 1
  have hiff : (∃ c ∈ refs.toList, (job.graph.get? c).bind CodeItem.debugInfo = some r) ↔
      ∃ c ∈ refs'.toList, (job.graph.get? c).bind CodeItem.debugInfo = some r :=
    exists_congr fun c => and_congr_left fun _ => hperm.mem_iff
  refine Bool.eq_iff_iff.mpr (.trans (Graph.contains_mark_array
    (fun c => (job.graph.get? c).bind CodeItem.debugInfo) (fun used c => ?_) refs)
    (hiff.trans (Graph.contains_mark_array
      (fun c => (job.graph.get? c).bind CodeItem.debugInfo) (fun used c => ?_) refs').symm))
  · cases (job.graph.get? c).bind CodeItem.debugInfo <;> rfl
  · change _ = Graph.mark used (((job.reorderCode named).graph.get? c).bind CodeItem.debugInfo)
    cases ((job.reorderCode named).graph.get? c).bind CodeItem.debugInfo <;> rfl

omit hkeep hg in
/-- Bodies that lie side by side are stored in any order, or in none. -/
theorem together_writeBodies (hapart : job.graph.BodiesApart d.layout)
    {refs refs' : Array (Ref .codeItem)} (hperm : refs.toList.Perm refs'.toList)
    (hrefs : ∀ r ∈ refs, job.graph.Has .codeItem r) (first : UInt32) :
    Together job (job.reorderCode named) (refs.foldlM writeBody first)
      (refs'.foldlM writeBody first) Evenly d d' := by
  rw [← Array.foldlM_toList, ← Array.foldlM_toList]
  have hrefs (r : Ref .codeItem) (hr : r ∈ refs.toList) := hrefs r (Array.mem_toList_iff.mp hr)
  generalize refs.toList = refs, refs'.toList = refs' at hperm hrefs
  by_cases hall : ∀ r ∈ refs, ∃ b, job.graph.Stores d.layout r b
  · have : Nonempty StoredBody := ⟨⟨0, ∅, 0⟩⟩
    choose! b hb using hall
    have hb' (r : Ref .codeItem) (hr : r ∈ refs') :
        (job.reorderCode named).graph.Stores d'.layout r (b r) :=
      h.layout ▸ (Graph.stores_reorder_code ..).mpr (hb r (hperm.mem_iff.mpr hr))
    refine together_of_establishes (establishes_writeBodies hb first)
      (establishes_writeBodies hb' first) ?_
    rintro _ _ e e' ⟨rfl, hstream, hlayout⟩ ⟨rfl, hstream', hlayout'⟩
    refine ⟨hperm.foldl_eq' (fun x _ y _ n => UInt32.toNat_inj.mp ?_) _, ?_, fun n => ?_⟩
    · simp only [toNat_min]
      omega
    · rw [hlayout, hlayout', h.layout]
      refine hperm.foldl_eq' (fun x _ y _ l => ?_) _
      by_cases hxy : x = y
      · rw [hxy]
      · exact l.setSize_comm hxy _ _
    · rw [hstream, hstream']
      exact alike_foldl_lay hperm (fun r hr => (hb r hr).tight)
        (fun x hx y hy hxy => hapart x y _ _ _ _ hxy (hb x hx).liesIn (hb y hy).liesIn)
        h.stream n
  · have hrefs' (r : Ref .codeItem) (hr : r ∈ refs') :
        (job.reorderCode named).graph.Has .codeItem r := hrefs r (hperm.mem_iff.mpr hr)
    refine together_of_refuted ((stores_of_writeBodies hrefs first).mono fun _ _ hb => hall hb)
      ((stores_of_writeBodies hrefs' first).mono fun _ _ hb => hall fun r hr => ?_)
    obtain ⟨b, hb⟩ := hb r (hperm.mem_iff.mp hr)
    exact ⟨b, h.layout ▸ (Graph.stores_reorder_code ..).mp hb⟩

theorem together_writeCode (hapart : job.graph.BodiesApart d.layout) :
    Together job (job.reorderCode named) writeCode writeCode Evenly d d' := by
  unfold writeCode
  refine (coupled_codeRefs_perm h hg).together.bind ?_
  rintro refs refs' d d' ⟨⟨hperm, hrefs⟩, rfl, rfl⟩
  refine (coupled_tell (Q := fun _ _ e e' => e = d ∧ e' = d') ⟨rfl, rfl⟩).together.bind ?_
  rintro resume resume' _ _ ⟨rfl, rfl⟩
  refine (together_writeBodies h hapart hperm hrefs _).bind ?_
  rintro first _ e e' ⟨rfl, h⟩
  have hempty : refs.isEmpty = refs'.isEmpty := by
    rw [Array.isEmpty, Array.isEmpty, ← Array.length_toList, ← Array.length_toList,
      hperm.length_eq]
  refine Coupled.together (coupled_get_bind ?_)
  rw [h.layout, hempty]
  have hresume (e e' : Draft) (h : e.Even e') : Coupled job (job.reorderCode named)
      (do if ← computesOffsets then changeStream fun stream => stream.seek resume)
      (do if ← computesOffsets then changeStream fun stream => stream.seek resume')
      Evenly e e' :=
    coupled_keeping hkeep (coupled_even h _)
  exact .ite (fun _ => (coupled_even_layout h _).onward fun _ => hresume)
    fun _ => hresume e e' h

end Bodies

/-! ### The image -/

theorem coupled_even_writeMapList (hg : job.graph.Sound) :
    Coupled job (job.reorderCode named) writeMapList writeMapList Evenly d d' := by
  unfold writeMapList
  refine coupled_keeping hkeep (coupled_get_bind ?_)
  rw [h.layout]
  refine (coupled_seek h _).onward fun _ e e' h => coupled_read_bind (coupled_get_bind ?_)
  rw [h.layout]
  change Coupled _ _ _ (ofExcept (mapListOf (job.graph.reorder .codeItem named) _) >>= _) _ _ _
  rw [mapListOf_reorder_code hg named]
  exact (coupled_level_taken h _).onward fun list _ _ h => (coupled_level_taken h _).onward
    fun bytes _ _ h => (coupled_level_write h bytes).onward fun _ _ _ h =>
    coupled_keeping hkeep (coupled_even h.even _)

theorem coupled_even_writeLinkData :
    Coupled job (job.reorderCode named) writeLinkData writeLinkData Evenly d d' := by
  unfold writeLinkData
  refine coupled_read_bind (.ite (fun _ => coupled_keeping hkeep (coupled_even h _)) fun _ => ?_)
  refine coupled_keeping hkeep (coupled_get_bind ?_)
  rw [h.layout]
  exact (coupled_seek h _).onward fun _ _ _ h =>
    (coupled_level_write h _).mono fun _ _ _ _ h => ⟨h.1, h.2.even⟩

theorem coupled_even_closeImage :
    Coupled job (job.reorderCode named) closeImage closeImage Evenly d d' := by
  have hlength : d.stream.length = d'.stream.length := (h.stream 0).length
  unfold closeImage
  refine coupled_get_bind (coupled_keeping hkeep (coupled_get_bind ?_))
  rw [hlength, h.layout]
  refine .ite (fun _ => coupled_throw) fun _ => coupled_get_bind (coupled_pure ⟨?_, h⟩)
  rw [h.layout]
  exact (h.stream 0).contents _

omit hkeep in
theorem coupled_even_stampHeader (image : Bytes) :
    Coupled job (job.reorderCode named) (stampHeader image) (stampHeader image) Evenly d d' := by
  unfold stampHeader
  refine coupled_read_bind (coupled_read_bind (coupled_get_bind ?_))
  rw [h.layout]
  exact (coupled_even_taken h _).onward fun header _ _ h => (coupled_even_taken h _).onward
    fun image _ _ h => (coupled_even_layout h _).onward fun _ _ _ h => coupled_even h _

end Steps

/-- A step that does not move the bodies leaves them side by side. -/
theorem Coupled.apart {w : Writer α} (h : Coupled job (job.reorderCode named) w w Evenly d d')
    (hw : Framed job w) (hkeep : job.options.computeOffsets = false)
    (hapart : job.graph.BodiesApart d.layout) :
    Coupled job (job.reorderCode named) w w (fun a b e e' =>
      a = b ∧ e.Even e' ∧ job.graph.BodiesApart e.layout) d d' := by
  have hframe := hw d.layout d (.refl job d.layout)
  unfold Coupled at h ⊢
  unfold Leaves at hframe
  split
  · rename_i hrun hrun'
    rw [hrun, hrun'] at h
    rw [hrun] at hframe
    exact ⟨h.1, h.2, hapart.congr (hframe.untouched hkeep).toSameOffsets⟩
  · rename_i hrun hrun'
    rwa [hrun, hrun'] at h
  · rename_i hok herror
    split at h
    · rename_i hrun hrun'
      exact hok _ _ _ _ hrun hrun'
    · rename_i hrun hrun'
      exact herror _ _ _ _ hrun hrun'
    · exact h

section Image

variable (hg : job.graph.Sound) (hkeep : job.options.computeOffsets = false)
include hg hkeep

theorem together_writeData (h : d.Even d') (hapart : job.graph.BodiesApart d.layout) :
    Together job (job.reorderCode named) writeData writeData Evenly d d' := by
  have hreserve : Coupled job (job.reorderCode named) reserveCode reserveCode Evenly d d' :=
    coupled_keeping hkeep (coupled_even h _)
  unfold writeData
  refine (hreserve.apart framed_reserveCode hkeep hapart).together.bind ?_
  rintro _ _ d d' ⟨-, h, hapart⟩
  refine ((coupled_debugInfoRefs_eq h hg).apart framed_debugInfoRefs hkeep hapart).together.bind ?_
  rintro refs _ d d' ⟨rfl, h, hapart⟩
  refine ((coupled_even_writeItems hkeep h refs _).apart (framed_writeItems rfl _ _) hkeep
    hapart).together.bind ?_
  rintro _ _ d d' ⟨-, h, hapart⟩
  refine (together_writeCode hkeep h hg hapart).bind ?_
  rintro _ _ d d' ⟨-, h⟩
  exact ((coupled_even_writeSection hkeep h (by decide) _).onward fun _ _ _ h =>
    (coupled_even_writeSection hkeep h (by decide) _).onward fun _ _ _ h =>
    (coupled_even_writeSection hkeep h (by decide) _).onward fun _ _ _ h =>
    (coupled_even_writeSection hkeep h (by decide) _).onward fun _ _ _ h =>
    (coupled_even_writeSection hkeep h (by decide) _).onward fun _ _ _ h =>
    (coupled_even_writeSection hkeep h (by decide) _).onward fun _ _ _ h =>
    (coupled_even_writeSection hkeep h (by decide) _).onward fun _ _ _ h =>
    (coupled_even_writeSection hkeep h (by decide) _).onward fun _ _ _ h =>
    coupled_even_writeHiddenapi hkeep h).together

theorem together_writeImage {l : Layout} (hapart : job.graph.BodiesApart l) :
    Together job (job.reorderCode named) writeImage writeImage Evenly ⟨∅, l⟩ ⟨∅, l⟩ := by
  have hstart : Draft.Even ⟨Stream.skip ∅ FileHeader.byteSize, l⟩
      ⟨Stream.skip ∅ FileHeader.byteSize, l⟩ := Draft.Level.even ⟨rfl, .refl _⟩
  have hmode : Together job (job.reorderCode named) computesOffsets computesOffsets
      (fun b b' e e' => (b = false ∧ b' = false) ∧ e = ⟨∅, l⟩ ∧ e' = ⟨∅, l⟩) ⟨∅, l⟩ ⟨∅, l⟩ :=
    ⟨⟨hkeep, hkeep⟩, rfl, rfl⟩
  unfold writeImage
  refine hmode.bind ?_
  rintro _ _ _ _ ⟨⟨rfl, rfl⟩, rfl, rfl⟩
  simp only [Bool.false_eq_true, if_false]
  refine Together.bind (R := fun _ _ e e' => e.Even e' ∧ job.graph.BodiesApart e.layout)
    ⟨hstart, hapart⟩ ?_
  rintro _ _ d d' ⟨h, hapart⟩
  refine ((coupled_even_writeTables hkeep h).apart framed_writeTables hkeep
    hapart).together.bind ?_
  rintro _ _ d d' ⟨-, h, hapart⟩
  have hopen : Coupled job (job.reorderCode named) openData openData Evenly d d' :=
    coupled_keeping hkeep (coupled_even h _)
  refine (hopen.apart framed_openData hkeep hapart).together.bind ?_
  rintro _ _ d d' ⟨-, h, hapart⟩
  refine (together_writeData hg hkeep h hapart).bind ?_
  rintro _ _ d d' ⟨-, h⟩
  exact ((coupled_even_fillTables h).onward fun _ _ _ h =>
    (coupled_even_writeMapList hkeep h hg).onward fun _ _ _ h =>
    (coupled_even_writeLinkData hkeep h).onward fun _ _ _ h =>
    (coupled_even_closeImage hkeep h).onward fun image _ _ h =>
    coupled_even_stampHeader h image).together

end Image

end Writer

namespace Graph

variable {g : Graph} {options : WriteOptions} {l : Layout}

/-- What a write gives is read off its run. -/
private theorem write_eq (g : Graph) (options : WriteOptions) (l : Layout) :
    g.write options l = match Writer.writeImage (g.job options) ⟨∅, l⟩ with
      | .ok image d => (.ok image, d.layout)
      | .error e d => (.error e, d.layout) := rfl

/-- Laying the bodies out in another order makes no difference to a write that keeps offsets, as
long as no two bodies lie one over the other. -/
theorem write_reorder_code (hg : g.Sound) (hkeep : options.computeOffsets = false)
    (hapart : g.BodiesApart l) (named : Array (Ref .codeItem)) (image : Bytes) (l' : Layout) :
    (g.reorder .codeItem named).write options l = (.ok image, l') ↔
      g.write options l = (.ok image, l') := by
  have h : Writer.Together (g.job options) ((g.reorder .codeItem named).job options)
      Writer.writeImage Writer.writeImage Writer.Evenly ⟨∅, l⟩ ⟨∅, l⟩ :=
    Writer.together_writeImage hg hkeep hapart
  rw [write_eq, write_eq]
  unfold Writer.Together at h
  generalize Writer.writeImage (g.job options) ⟨∅, l⟩ = run at h ⊢
  generalize Writer.writeImage ((g.reorder .codeItem named).job options) ⟨∅, l⟩ = run' at h ⊢
  cases run with
  | ok image d =>
    cases run' with
    | ok image' d' =>
      obtain ⟨rfl, h⟩ := h
      simp only [h.layout]
    | error e d' => exact h.elim
  | error e d =>
    cases run' with
    | ok image' d' => exact h.elim
    | error e' d' => simp

end Graph

/-- In an image that has been laid out anew no two bodies lie one over the other. -/
theorem FreshImage.bodiesApart {g : Graph} {l : Layout} {image : Bytes} {blocks : List Block}
    (h : FreshImage g l image blocks) : g.BodiesApart l := by
  have hsize {r : Ref .codeItem} {code : CodeItem} {o : UInt32} {item : Stream}
      (hcode : g.get? r = some code) (ho : (l.place r).offset = some o)
      (hitem : code.encode 0 = .ok item) : item.length = (l.place r).size.toNat := by
    obtain ⟨item', hitem', -⟩ := h.heldAt .codeItem r code o hcode ho
    obtain ⟨-, -, code', hcode', hlength⟩ := h.recorded _ (h.item_mem rfl ho)
    cases hcode.symm.trans hcode'
    have hrecorded := hlength l item' (.refl l) hitem'
    obtain ⟨debugOffset, -, hitem'⟩ := Except.bind_eq_ok_iff.mp hitem'
    obtain ⟨item'', hitem'', hsame⟩ := CodeItem.encode_with_offset hitem' 0
    cases hitem.symm.trans hitem''
    simp only at hrecorded
    omega
  rintro r r' _ _ _ _ hne ⟨code, o, item, hcode, ho, hitem, rfl, rfl⟩
    ⟨code', o', item', hcode', ho', hitem', rfl, rfl⟩
  rw [hsize hcode ho hitem, hsize hcode' ho' hitem']
  exact h.disjoint (h.item_mem rfl ho) (h.item_mem rfl ho') (by simpa using hne)

namespace Dex

/-- Collecting cross references changes nothing but the cross references, and laying code out in
class order changes nothing but the order of the bodies. So the image is the same with and without
the one before any write, and with and without the other before a write that keeps offsets, if no
two bodies lie one over the other. -/
theorem passes_frame (d : Dex) (h : d.graph.Sound) :
    (d.findReferences = { d with references := d.findReferences.references } ∧
      ∀ options, d.findReferences.write options =
        ((d.write options).1, (d.write options).2.findReferences)) ∧
    (∃ order : Array (Ref .codeItem), order.toList.Perm d.graph.codeItems.order.toList ∧
      d.orderCodeByClass = { d with graph :=
        { d.graph with codeItems := { d.graph.codeItems with order := order } } }) ∧
    (∀ (s : Section) (r : Ref s), d.orderCodeByClass.graph.get? r = d.graph.get? r) ∧
    ∀ options, options.computeOffsets = false → d.graph.BodiesApart d.layout → ∀ image l,
      (d.orderCodeByClass.write options = (.ok image, ⟨d.orderCodeByClass.graph, l, d.references⟩) ↔
        d.write options = (.ok image, ⟨d.graph, l, d.references⟩)) := by
  refine ⟨⟨rfl, fun _ => rfl⟩, ⟨_, ?_, rfl⟩, fun s r => d.graph.get?_reorder_code _ r, ?_⟩
  · exact Collection.order_reorder_perm (h.coherent .codeItem) _
  · intro options hkeep hapart image l
    have hwrite (d : Dex) : d.write options = (.ok image, ⟨d.graph, l, d.references⟩) ↔
        d.graph.write options d.layout = (.ok image, l) := by
      simp only [write, Dex.mk.injEq, true_and, and_true, Prod.ext_iff]
    exact (hwrite d.orderCodeByClass).trans
      ((Graph.write_reorder_code h hkeep hapart _ image l).trans (hwrite d).symm)

end Dex

/-! ## Two bodies in the wrong order -/

/-- A graph with one class, whose first method has the second body. -/
def Graph.swappedBodies : Graph :=
  { empty with
    stringDatas := .ofItems [⟨1, #[0x56]⟩, ⟨1, #[0x66]⟩]
    stringIds := .ofItems [⟨⟨0⟩⟩, ⟨⟨1⟩⟩]
    typeIds := .ofItems [⟨⟨0⟩⟩]
    protoIds := .ofItems [⟨⟨0⟩, ⟨0⟩, none⟩]
    methodIds := .ofItems [⟨⟨0⟩, ⟨0⟩, ⟨0⟩⟩, ⟨⟨0⟩, ⟨0⟩, ⟨1⟩⟩]
    classDefs := .ofItems [⟨⟨0⟩, ⟨1⟩, none, none, none, none, some ⟨0⟩, none⟩]
    codeItems := .ofItems [⟨1, 0, 0, none, #[0x000E], #[], #[]⟩,
      ⟨1, 0, 0, none, #[0, 0, 0x000E], #[], #[]⟩]
    classDatas := .ofItems
      [⟨none, #[], #[], #[⟨⟨8⟩, ⟨0⟩, some ⟨1⟩, none⟩, ⟨⟨8⟩, ⟨1⟩, some ⟨0⟩, none⟩], #[]⟩] }

theorem Graph.swappedBodies_sound : swappedBodies.Sound where
  coherent s := by
    cases s with
    | stringData | stringId | typeId | protoId | methodId | classDef | classData | codeItem =>
      exact Collection.coherent_ofItems (by decide)
    | _ => exact Collection.coherent_empty
  refs s r x h := by
    have hmem := Array.mem_of_getElem? h
    cases s with
    | stringData => trivial
    | stringId | typeId | protoId | methodId | classDef | classData | codeItem =>
      simp [swappedBodies, entities] at hmem
      rcases hmem with rfl | rfl <;> unfold Section.AllRefs <;> decide
    | _ => simp [swappedBodies, entities, empty, withMagic] at hmem

/-- The two bodies change places, and yet the image comes out that has been laid out before. -/
theorem Dex.passes_frame_swappedBodies : ∃ image d,
    Dex.write ⟨.swappedBodies, .empty, {}⟩ .relayout = (.ok image, d) ∧
    d.graph.Sound ∧ WriteOptions.preserving.computeOffsets = false ∧
    d.graph.BodiesApart d.layout ∧ d.graph.codeItems.order = #[⟨0⟩, ⟨1⟩] ∧
    d.orderCodeByClass.graph.codeItems.order = #[⟨1⟩, ⟨0⟩] ∧
    d.orderCodeByClass.write .preserving = (.ok image, d.orderCodeByClass) := by
  have hok : (Graph.swappedBodies.write .relayout .empty).1.isOk = true := by
    simp only [Graph.write, Writer.writeImage, Writer.closeImage, Writer.stampHeader,
      FileHeader.store, Stream.contents, Bytes.overlay_eq_laid, Writer.writeMapList, mapListOf,
      MapEntry.mergeSort_le]
    decide +kernel
  obtain ⟨image, l, hwrite⟩ := Graph.exists_of_isOk hok
  have hsound : Graph.swappedBodies.Sound := Graph.swappedBodies_sound
  obtain ⟨blocks, himage⟩ := Graph.write_relayout hsound hwrite
  have hapart : Graph.swappedBodies.BodiesApart l := himage.bodiesApart
  have hagain : Dex.write ⟨.swappedBodies, l, {}⟩ .preserving =
      (.ok image, ⟨.swappedBodies, l, {}⟩) := by
    unfold Dex.write
    rw [Graph.write_again hsound hwrite rfl]
  have horder : Graph.swappedBodies.orderCodeByClass.codeItems.order = #[⟨1⟩, ⟨0⟩] := by decide
  refine ⟨image, ⟨.swappedBodies, l, {}⟩, ?_, hsound, rfl, hapart, rfl, horder, ?_⟩
  · unfold Dex.write
    rw [hwrite]
  · exact (((passes_frame ⟨.swappedBodies, l, {}⟩ hsound).2.2.2 .preserving rfl hapart image l).mpr
      hagain)

end DexGraph
