import DexGraph.Proofs.Writing.Establishes

/-!
# Writing under a layout that is kept

When the layout is not computed, nothing is set aside and nothing is aligned: an item goes where
the layout has it, and an item without an offset is an error. This file says so of the steps in
which the two ways of writing differ.
-/

namespace DexGraph

theorem SectionLayout.modifyPlace_eq_self {l : SectionLayout} {i : Nat} {p : Place}
    (hp : l.places[i]? = some p) {f : Place → Place} (hf : f p = p) (fresh : Place) :
    l.modifyPlace fresh i f = l := by
  have hplaces : l.places.modify i f = l.places := by
    apply Array.ext_getElem?
    intro j
    rw [Array.getElem?_modify]
    split
    · rename_i hij
      rw [← hij, hp, Option.map_some, hf]
    · rfl
  rw [modifyPlace, if_pos (Array.getElem?_eq_some_iff.mp hp).1, hplaces]

namespace Layout

variable {l : Layout} {s : Section} {r : Ref s}

/-- Recording once more where an entity lies changes nothing. -/
theorem modifyPlace_eq_self {f : Place → Place} {o : UInt32} (ho : (l.place r).offset = some o)
    (hf : f (l.place r) = l.place r) : l.modifyPlace r f = l := by
  obtain ⟨p, hp, hplace⟩ : ∃ p, (l.sections.get s).places[r.pos]? = some p ∧ l.place r = p := by
    unfold place at ho ⊢
    cases h : (l.sections.get s).places[r.pos]? with
    | none =>
      rw [h] at ho
      cases ho
    | some p => exact ⟨p, rfl, rfl⟩
  have hsections : l.sections.modify s (·.modifyPlace (Place.fresh s) r.pos f) = l.sections := by
    refine PerSection.ext_get fun t => ?_
    rw [PerSection.get_modify]
    split
    · rename_i hst
      subst hst
      exact SectionLayout.modifyPlace_eq_self hp (hplace ▸ hf) _
    · rfl
  rw [modifyPlace, hsections]

theorem setPlace_eq_self {p : Place} {o : UInt32} (hp : l.place r = p) (ho : p.offset = some o) :
    l.setPlace r p = l :=
  modifyPlace_eq_self (hp ▸ ho) hp.symm

theorem setSize_eq_self {size : UInt32} {o : UInt32} (ho : (l.place r).offset = some o)
    (hsize : (l.place r).size = size) : l.setSize r size = l :=
  modifyPlace_eq_self ho (by rw [← hsize])

end Layout

namespace Writer

variable {job : Job} {E : Error → Prop} {d : Draft} {s : Section}

/-! ## Places -/

theorem establishes_place_some (hkeep : job.options.computeOffsets = false) {o : UInt32} {k : Nat}
    {subject : Unplaced} {Q : UInt32 → Draft → Prop} :
    Establishes job E (place (some o) k subject) Q d ↔
      Q o { d with stream := d.stream.seek o.toNat } := by
  simp only [place, establishes_bind, establishes_computesOffsets, hkeep, Bool.false_eq_true,
    if_false, establishes_changeStream, establishes_pure]

theorem establishes_place_none (hkeep : job.options.computeOffsets = false) {k : Nat}
    {subject : Unplaced} {Q : UInt32 → Draft → Prop} :
    Establishes job E (place none k subject) Q d ↔ E (.unassignedOffset subject) := by
  simp only [place, establishes_bind, establishes_computesOffsets, hkeep, Bool.false_eq_true,
    if_false, establishes_throw]

/-! ## Steps that set room aside -/

theorem establishes_reserveTable (hkeep : job.options.computeOffsets = false)
    {Q : Unit → Draft → Prop} : Establishes job E (reserveTable s) Q d ↔ Q () d := by
  simp only [reserveTable, establishes_bind, establishes_read, establishes_computesOffsets, hkeep,
    Bool.false_and, Bool.false_eq_true, if_false, establishes_pure]

theorem establishes_writeTable (hkeep : job.options.computeOffsets = false) {row : Type} [Row row]
    {toRow : Layout → s.Content → Except Error row} {Q : Unit → Draft → Prop} :
    Establishes job E (writeTable s toRow) Q d ↔ Establishes job E (fillTable s toRow) Q d := by
  rw [writeTable, establishes_bind, establishes_reserveTable hkeep]

theorem establishes_openData (hkeep : job.options.computeOffsets = false)
    {Q : Unit → Draft → Prop} : Establishes job E openData Q d ↔ Q () d := by
  simp only [openData, establishes_bind, establishes_computesOffsets, hkeep, Bool.false_eq_true,
    if_false, establishes_pure]

theorem establishes_reserveCode (hkeep : job.options.computeOffsets = false)
    {Q : Unit → Draft → Prop} : Establishes job E reserveCode Q d ↔ Q () d := by
  simp only [reserveCode, establishes_bind, establishes_computesOffsets, hkeep,
    Bool.false_eq_true, if_false, establishes_pure]

end Writer

end DexGraph
