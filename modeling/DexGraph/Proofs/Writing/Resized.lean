import DexGraph.Proofs.Writing.Frame

/-!
# The sizes that a write records

A write that keeps offsets records the size of every entity that it stores. `Layout.Resized g l l'`
says that nothing else happens to the places of entities: each has its old size or that of a form of
the entity. It holds whether writing succeeds or fails (`Graph.resized_write`).
-/

namespace DexGraph

/-- From `l` to `l'` an entity of the graph has kept its size or got that of a form of it. -/
def Layout.Resized (g : Graph) (l l' : Layout) : Prop :=
  ∀ (s : Section) (r : Ref s), (l'.place r).size = (l.place r).size ∨
    ∃ x l₀ item, g.get? r = some x ∧ s.encode l₀ x = .ok item ∧
      (l'.place r).size.toNat = item.position

namespace Layout.Resized

variable {g : Graph} {l l' : Layout} {s : Section}

theorem refl (l : Layout) : l.Resized g l :=
  fun _ _ => .inl rfl

/-- Only the places of entities matter. -/
theorem congr (h : l.Resized g l') {l'' : Layout}
    (hplace : ∀ s (r : Ref s), l''.place r = l'.place r) : l.Resized g l'' := by
  intro s r
  rw [hplace]
  exact h s r

/-- An entity gets the size of its form. -/
theorem modifyPlace (h : l.Resized g l') {r : Ref s} {x : s.Content} {l₀ : Layout} {item : Stream}
    (hx : g.get? r = some x) (hitem : s.encode l₀ x = .ok item) {f : Place → Place}
    (hf : (f (l'.place r)).size.toNat = item.position) : l.Resized g (l'.modifyPlace r f) := by
  intro t r'
  by_cases hst : s = t
  · subst hst
    rw [place_modifyPlace]
    split
    · rename_i hr
      subst hr
      exact .inr ⟨x, l₀, item, hx, hitem, hf⟩
    · exact h s r'
  · rw [place_modifyPlace_of_ne _ hst]
    exact h t r'

end Layout.Resized

namespace Writer

variable {α β : Type} {job : Job}

/-- The step, started from a layout that has been resized since `l`, leaves one that has, even if
it fails. -/
def Resizing (job : Job) (w : Writer α) : Prop :=
  ∀ (l : Layout) (d : Draft), l.Resized job.graph d.layout →
    Leaves job (l.Resized job.graph) w (fun _ d' => l.Resized job.graph d'.layout) d

theorem resizing_pure {a : α} : Resizing job (pure a) :=
  fun _ _ h => h

theorem resizing_ofExcept (x : Except Error α) : Resizing job (ofExcept x) :=
  fun _ _ h => leaves_ofExcept.mpr ⟨fun _ _ => h, fun _ => h⟩

theorem resizing_throw (e : Error) : Resizing job (throw e : Writer α) :=
  fun _ _ h => h

theorem resizing_changeStream (f : Stream → Stream) : Resizing job (changeStream f) :=
  fun _ _ h => h

theorem resizing_tell : Resizing job tell :=
  fun _ _ h => h

theorem resizing_get : Resizing job get :=
  fun _ _ h => h

theorem Resizing.bind {w : Writer β} {f : β → Writer α} (hw : Resizing job w)
    (hf : ∀ b, Resizing job (f b)) : Resizing job (w >>= f) :=
  fun l d h => (hw l d h).bind fun b d' => hf b l d'

theorem resizing_read_bind {f : Job → Writer α} (hf : Resizing job (f job)) :
    Resizing job (read >>= f) :=
  hf

theorem resizing_computesOffsets_bind {f : Bool → Writer α}
    (hf : Resizing job (f job.options.computeOffsets)) : Resizing job (computesOffsets >>= f) :=
  hf

theorem Resizing.ite {c : Prop} [Decidable c] {w w' : Writer α} (h : Resizing job w)
    (h' : Resizing job w') : Resizing job (if c then w else w') := by
  split
  · exact h
  · exact h'

theorem resizing_foldlM {f : β → α → Writer β} (hf : ∀ b x, Resizing job (f b x)) (xs : Array α)
    (b : β) : Resizing job (xs.foldlM f b) :=
  fun l _ => leaves_foldlM fun b x => hf b x l

theorem resizing_changeLayout {f : Layout → Layout}
    (hf : ∀ l s (r : Ref s), (f l).place r = l.place r) : Resizing job (changeLayout f) :=
  fun _ d h => h.congr (hf d.layout)

section Steps

variable {s : Section}

/-! ## Steps of every write -/

theorem resizing_fillTable {row : Type} [Row row]
    (toRow : Layout → s.Content → Except Error row) : Resizing job (fillTable s toRow) := by
  unfold fillTable
  refine resizing_read_bind (.ite resizing_pure (resizing_get.bind fun d => ?_))
  cases d.layout.sectionOffset s with
  | none => exact resizing_throw _
  | some o =>
    exact (resizing_changeStream _).bind fun _ => resizing_foldlM (fun _ x =>
      resizing_get.bind fun d => (resizing_ofExcept _).bind fun _ => resizing_changeStream _) _ _

theorem resizing_fillTables : Resizing job fillTables :=
  (resizing_fillTable _).bind fun _ => (resizing_fillTable _).bind fun _ =>
    (resizing_fillTable _).bind fun _ => resizing_fillTable _

/-- An item is stored where it was placed, and its size is as far as the output has come. -/
theorem resizing_writeItem {encode : Layout → s.Content → Except Error Stream}
    (hencode : ∀ l x, encode l x = s.encode l x) (first : UInt32) (r : Ref s) :
    Resizing job (writeItem s encode first r) := by
  unfold writeItem
  refine resizing_read_bind ?_
  cases hx : job.graph.get? r with
  | none => exact resizing_pure
  | some x =>
    intro l d h
    rw [leaves_bind, leaves_get]
    refine (leaves_place h).bind ?_
    rintro start d₁ ⟨hl, hpos, -⟩
    have h₁ : l.Resized job.graph d₁.layout := hl ▸ h
    simp only [leaves_bind, leaves_get, leaves_ofExcept, leaves_changeStream, leaves_tell,
      leaves_changeLayout, leaves_pure, toWord_eq_ok_iff, Stream.position_append, hpos,
      Nat.add_sub_cancel_left]
    refine ⟨fun item hitem => ⟨fun size hsize => ?_, fun _ => h₁⟩, fun _ => h₁⟩
    exact h₁.modifyPlace hx ((hencode _ x).symm.trans hitem) hsize.symm

theorem resizing_writeItems (refs : Array (Ref s))
    {encode : Layout → s.Content → Except Error Stream}
    (hencode : ∀ l x, encode l x = s.encode l x) : Resizing job (writeItems s refs encode) := by
  unfold writeItems
  refine .ite resizing_pure ((resizing_foldlM (resizing_writeItem hencode) _ _).bind fun first =>
    resizing_computesOffsets_bind (resizing_get.bind fun _ => .ite ?_ resizing_pure))
  exact resizing_changeLayout fun l _ _ => l.place_setSectionOffset ..

theorem resizing_writeSection {encode : Layout → s.Content → Except Error Stream}
    (hencode : ∀ l x, encode l x = s.encode l x) : Resizing job (writeSection s encode) :=
  resizing_read_bind (resizing_writeItems _ hencode)

theorem resizing_codeRefs : Resizing job codeRefs :=
  resizing_read_bind (resizing_get.bind fun _ => resizing_pure)

theorem resizing_debugInfoRefs : Resizing job debugInfoRefs :=
  resizing_read_bind (resizing_codeRefs.bind fun _ => resizing_get.bind fun _ => resizing_pure)

theorem resizing_writeBody (first : UInt32) (r : Ref .codeItem) :
    Resizing job (writeBody first r) := by
  unfold writeBody
  refine resizing_read_bind ?_
  cases hx : job.graph.get? r with
  | none => exact resizing_pure
  | some code =>
    intro l d h
    simp only [leaves_bind, leaves_get, leaves_ofExcept, leaves_changeStream, leaves_tell,
      leaves_changeLayout, leaves_pure, toWord_eq_ok_iff, Stream.position_append,
      Stream.position_seek, Nat.add_sub_cancel_left]
    refine ⟨fun o _ => ⟨fun debugOffset hdebug => ⟨fun item hitem => ⟨fun size hsize => ?_,
      fun _ => h⟩, fun _ => h⟩, fun _ => h⟩, fun _ => h⟩
    have hform : Section.encode d.layout .codeItem code = .ok item := by
      rw [Section.encode, hdebug]
      exact hitem
    exact h.modifyPlace hx hform hsize.symm

theorem resizing_writeCode : Resizing job writeCode := by
  unfold writeCode
  refine resizing_codeRefs.bind fun refs => resizing_tell.bind fun _ =>
    (resizing_foldlM resizing_writeBody _ _).bind fun first => resizing_get.bind fun _ =>
    Resizing.ite ((resizing_changeLayout fun l _ _ => l.place_setSectionOffset ..).bind fun _ => ?_)
      ?_
  all_goals
    exact resizing_computesOffsets_bind (.ite (resizing_changeStream _) resizing_pure)

theorem resizing_writeHiddenapi : Resizing job writeHiddenapi := by
  unfold writeHiddenapi
  refine resizing_read_bind ?_
  cases job.graph.hiddenapi with
  | none => exact resizing_pure
  | some flags =>
    intro l d h
    rw [leaves_bind, leaves_get]
    refine (leaves_place h).bind ?_
    rintro start d₁ ⟨hl, -, -⟩
    have hrest : Resizing job (do
        let item ← ofExcept (flags.encode d.layout.hiddenapi.size)
        changeStream fun stream => stream ++ item
        let size ← ofExcept (toWord ((← tell) - start.toNat))
        changeLayout fun l => { l with hiddenapi := ⟨some start, size⟩ }) :=
      (resizing_ofExcept _).bind fun _ => (resizing_changeStream _).bind fun _ =>
        resizing_tell.bind fun _ => (resizing_ofExcept _).bind fun _ =>
        resizing_changeLayout fun _ _ _ => rfl
    exact hrest l d₁ (hl ▸ h)

theorem resizing_stampHeader (image : Bytes) : Resizing job (stampHeader image) := by
  unfold stampHeader
  refine resizing_read_bind (resizing_read_bind (resizing_get.bind fun _ =>
    (resizing_ofExcept _).bind fun _ => (resizing_ofExcept _).bind fun _ =>
    Resizing.bind (fun l d h => ?_) fun _ => resizing_pure))
  exact h.congr fun _ _ => rfl

/-! ## Steps that do less when offsets are kept -/

section Kept

variable (hkeep : job.options.computeOffsets = false)
include hkeep

theorem resizing_ite_computesOffsets {w w' : Writer α} (h : Resizing job w') :
    Resizing job (do if ← computesOffsets then w else w') := by
  refine resizing_computesOffsets_bind ?_
  rw [hkeep]
  exact h

theorem resizing_reserveTable (s : Section) : Resizing job (reserveTable s) := by
  unfold reserveTable
  refine resizing_read_bind (resizing_computesOffsets_bind ?_)
  rw [hkeep]
  exact resizing_pure

theorem resizing_writeTable {row : Type} [Row row]
    (toRow : Layout → s.Content → Except Error row) : Resizing job (writeTable s toRow) :=
  (resizing_reserveTable hkeep s).bind fun _ => resizing_fillTable toRow

theorem resizing_writeTables : Resizing job writeTables :=
  (resizing_reserveTable hkeep _).bind fun _ => (resizing_writeTable hkeep _).bind fun _ =>
    (resizing_reserveTable hkeep _).bind fun _ => (resizing_writeTable hkeep _).bind fun _ =>
    (resizing_writeTable hkeep _).bind fun _ => (resizing_reserveTable hkeep _).bind fun _ =>
    (resizing_reserveTable hkeep _).bind fun _ => resizing_writeTable hkeep _

theorem resizing_openData : Resizing job openData :=
  resizing_ite_computesOffsets hkeep resizing_pure

theorem resizing_reserveCode : Resizing job reserveCode :=
  resizing_ite_computesOffsets hkeep resizing_pure

theorem resizing_writeData : Resizing job writeData :=
  (resizing_reserveCode hkeep).bind fun _ => resizing_debugInfoRefs.bind fun _ =>
    (resizing_writeItems _ fun _ _ => rfl).bind fun _ => resizing_writeCode.bind fun _ =>
    (resizing_writeSection fun _ _ => rfl).bind fun _ =>
    (resizing_writeSection fun _ _ => rfl).bind fun _ =>
    (resizing_writeSection fun _ _ => rfl).bind fun _ =>
    (resizing_writeSection fun _ _ => rfl).bind fun _ =>
    (resizing_writeSection fun _ _ => rfl).bind fun _ =>
    (resizing_writeSection fun _ _ => rfl).bind fun _ =>
    (resizing_writeSection fun _ _ => rfl).bind fun _ =>
    (resizing_writeSection fun _ _ => rfl).bind fun _ => resizing_writeHiddenapi

theorem resizing_writeMapList : Resizing job writeMapList :=
  resizing_ite_computesOffsets hkeep <| resizing_get.bind fun _ =>
    (resizing_changeStream _).bind fun _ => resizing_read_bind <| resizing_get.bind fun _ =>
    (resizing_ofExcept _).bind fun _ => (resizing_ofExcept _).bind fun _ =>
    (resizing_changeStream _).bind fun _ => resizing_ite_computesOffsets hkeep resizing_pure

theorem resizing_writeLinkData : Resizing job writeLinkData :=
  resizing_read_bind <| .ite (resizing_ite_computesOffsets hkeep resizing_pure) <|
    resizing_ite_computesOffsets hkeep <| resizing_get.bind fun _ =>
    (resizing_changeStream _).bind fun _ => resizing_changeStream _

theorem resizing_closeImage : Resizing job closeImage :=
  resizing_get.bind fun _ => resizing_ite_computesOffsets hkeep <| resizing_get.bind fun _ =>
    .ite ((resizing_throw _).bind fun _ => resizing_get.bind fun _ => resizing_pure)
      (resizing_get.bind fun _ => resizing_pure)

theorem resizing_writeImage : Resizing job writeImage :=
  resizing_ite_computesOffsets hkeep <| (resizing_changeStream _).bind fun _ =>
    (resizing_writeTables hkeep).bind fun _ => (resizing_openData hkeep).bind fun _ =>
    (resizing_writeData hkeep).bind fun _ => resizing_fillTables.bind fun _ =>
    (resizing_writeMapList hkeep).bind fun _ => (resizing_writeLinkData hkeep).bind fun _ =>
    (resizing_closeImage hkeep).bind resizing_stampHeader

end Kept

end Steps

end Writer

/-- Whatever comes of a write that keeps offsets, an entity has its old size or that of a form of
it. -/
theorem Graph.resized_write (g : Graph) {options : WriteOptions}
    (hkeep : options.computeOffsets = false) (l : Layout) :
    l.Resized g (g.write options l).2 := by
  have h : Writer.Leaves ⟨g, options, g.liveCode⟩ (l.Resized g) _ _ _ :=
    Writer.resizing_writeImage hkeep l ⟨∅, l⟩ (.refl l)
  unfold Writer.Leaves at h
  unfold write
  cases hrun : Writer.writeImage ⟨g, options, g.liveCode⟩ ⟨∅, l⟩ <;> rw [hrun] at h <;> exact h

end DexGraph
