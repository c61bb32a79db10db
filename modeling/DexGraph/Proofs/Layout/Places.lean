import DexGraph.Layout
import DexGraph.Proofs.Bytes.HoldsAt

/-!
# Places in a layout

What a change of a layout does to the places of entities and to the offsets of sections, one
equation for each change and each view, and the order of layouts by what they have placed:
`Layout.Extends l l'` says that `l'` keeps every offset that `l` assigns.
-/

namespace DexGraph

namespace Ref

variable {s : Section}

theorem pos_inj {r r' : Ref s} : r.pos = r'.pos ↔ r = r' := by
  constructor
  · intro h
    obtain ⟨slot⟩ := r
    obtain ⟨slot'⟩ := r'
    exact congrArg Ref.mk (UInt32.toNat_inj.mp h)
  · exact congrArg pos

@[simp] theorem ofPos_pos (r : Ref s) : ofPos r.pos = r :=
  pos_inj.mp (pos_ofPos r.slot.toNat_lt)

end Ref

theorem PerSection.ext_get {α : Type} {p p' : PerSection α} (h : ∀ s, p.get s = p'.get s) :
    p = p' := by
  obtain ⟨values⟩ := p
  obtain ⟨values'⟩ := p'
  congr 1
  ext i hi
  have hsurj : ∀ i : Fin Section.count, ∃ s : Section, s.index = i := by
    intro i
    have hall : ∀ i : Fin Section.count, ∃ s ∈ [Section.stringData, .stringId, .typeId, .typeList,
        .protoId, .fieldId, .methodId, .classDef, .callSiteId, .methodHandle, .encodedArray,
        .annotationItem, .annotationSet, .annotationSetRefList, .annotationsDirectory, .debugInfo,
        .codeItem, .classData], s.index = i := by decide
    obtain ⟨s, -, hs⟩ := hall i
    exact ⟨s, hs⟩
  obtain ⟨s, hs⟩ := hsurj ⟨i, hi⟩
  have := h s
  simp only [get, hs] at this
  exact this

namespace SectionLayout

theorem getElem?_modifyPlace (l : SectionLayout) (fresh : Place) (i j : Nat) (f : Place → Place) :
    ((l.modifyPlace fresh i f).places[j]?).getD fresh =
      if i = j then f ((l.places[j]?).getD fresh) else (l.places[j]?).getD fresh := by
  unfold modifyPlace
  split
  · rename_i hi
    simp only [Array.getElem?_modify]
    split
    · rename_i hij
      subst hij
      simp [Array.getElem?_eq_getElem hi]
    · rfl
  · rename_i hi
    simp only [Array.getElem?_push, Array.size_append, Array.size_replicate]
    by_cases hij : i = j
    · subst hij
      rw [if_pos (by omega), if_pos rfl, Array.getElem?_eq_none (by omega)]
      rfl
    · rw [if_neg (by omega), if_neg hij, Array.getElem?_append]
      split
      · rfl
      · rename_i hj
        rw [Array.getElem?_replicate, Array.getElem?_eq_none (by omega)]
        split <;> rfl

theorem modifyPlace_modifyPlace (l : SectionLayout) (fresh : Place) (i : Nat)
    (f f' : Place → Place) :
    (l.modifyPlace fresh i f).modifyPlace fresh i f' = l.modifyPlace fresh i (f' ∘ f) := by
  unfold modifyPlace
  by_cases hi : i < l.places.size
  · simp only [if_pos hi, Array.size_modify]
    congr 1
    apply Array.ext_getElem?
    intro j
    simp only [Array.getElem?_modify]
    split <;> simp
  · have hsize : l.places.size + (i - l.places.size) = i := by omega
    have hlt : i < l.places.size + (i - l.places.size) + 1 := by omega
    simp only [if_neg hi, Array.size_push, Array.size_append, Array.size_replicate, if_pos hlt]
    congr 1
    apply Array.ext_getElem?
    intro j
    simp only [Array.getElem?_modify, Array.getElem?_push, Array.size_append, Array.size_replicate,
      hsize, eq_comm]
    split <;> simp

@[simp] theorem offset_modifyPlace (l : SectionLayout) (fresh : Place) (i : Nat)
    (f : Place → Place) : (l.modifyPlace fresh i f).offset = l.offset := by
  unfold modifyPlace
  split <;> rfl

theorem size_modifyPlace (l : SectionLayout) (fresh : Place) (i : Nat) (f : Place → Place) :
    (l.modifyPlace fresh i f).places.size = max l.places.size (i + 1) := by
  unfold modifyPlace
  split
  · rw [Array.size_modify]
    omega
  · simp only [Array.size_push, Array.size_append, Array.size_replicate]
    omega

/-- A section layout is told from its offset, the number of recorded places, and the places. -/
theorem ext_places {l l' : SectionLayout} {fresh : Place} (hoffset : l.offset = l'.offset)
    (hsize : l.places.size = l'.places.size)
    (hplaces : ∀ j : Nat, (l.places[j]?).getD fresh = (l'.places[j]?).getD fresh) : l = l' := by
  obtain ⟨offset, places⟩ := l
  obtain ⟨offset', places'⟩ := l'
  obtain rfl : offset = offset' := hoffset
  congr 1
  refine Array.ext hsize fun j hj hj' => ?_
  have := hplaces j
  rwa [Array.getElem?_eq_getElem hj, Array.getElem?_eq_getElem hj', Option.getD_some,
    Option.getD_some] at this

/-- The places of different slots can be changed one before the other or the other way round. -/
theorem modifyPlace_comm (l : SectionLayout) (fresh : Place) {i j : Nat} (hij : i ≠ j)
    (f f' : Place → Place) :
    (l.modifyPlace fresh i f).modifyPlace fresh j f' =
      (l.modifyPlace fresh j f').modifyPlace fresh i f := by
  refine @ext_places _ _ fresh ?_ ?_ fun k => ?_
  · simp only [offset_modifyPlace]
  · simp only [size_modifyPlace]
    omega
  · simp only [getElem?_modifyPlace]
    by_cases hik : i = k
    · have hjk : ¬ j = k := fun hjk => hij (hik.trans hjk.symm)
      simp only [if_pos hik, if_neg hjk]
    · simp only [if_neg hik]

end SectionLayout

namespace Layout

variable {s t : Section} (l : Layout)

/-! ## Places -/

theorem place_modifyPlace (r r' : Ref s) (f : Place → Place) :
    (l.modifyPlace r f).place r' = if r = r' then f (l.place r') else l.place r' := by
  simp only [place, modifyPlace, PerSection.get_modify, if_true,
    SectionLayout.getElem?_modifyPlace, Ref.pos_inj]

theorem place_modifyPlace_of_ne (h : s ≠ t) (r : Ref s) (r' : Ref t) (f : Place → Place) :
    (l.modifyPlace r f).place r' = l.place r' := by
  simp only [place, modifyPlace, PerSection.get_modify, if_neg h]

@[simp] theorem place_setSectionOffset (o : Option UInt32) (r : Ref t) :
    (l.setSectionOffset s o).place r = l.place r := by
  simp only [place, setSectionOffset, PerSection.get_modify]
  split <;> rfl

@[simp] theorem place_setPlace_self (r : Ref s) (p : Place) : (l.setPlace r p).place r = p := by
  simp [setPlace, place_modifyPlace]

theorem place_setPlace (r r' : Ref s) (p : Place) :
    (l.setPlace r p).place r' = if r = r' then p else l.place r' := by
  simp [setPlace, place_modifyPlace]

theorem place_setPlace_of_ne (h : s ≠ t) (r : Ref s) (r' : Ref t) (p : Place) :
    (l.setPlace r p).place r' = l.place r' :=
  l.place_modifyPlace_of_ne h r r' _

@[simp] theorem offset_place_setSize (r : Ref s) (r' : Ref t) (size : UInt32) :
    ((l.setSize r size).place r').offset = (l.place r').offset := by
  by_cases h : s = t
  · subst h
    rw [setSize, place_modifyPlace]
    split <;> rfl
  · rw [setSize, l.place_modifyPlace_of_ne h]

theorem place_captureOffset {keep : Bool} {r r' : Ref s} (h : r' ≠ r) (o : UInt32) :
    (l.captureOffset keep r o).place r' = l.place r' := by
  cases keep with
  | false => rfl
  | true => exact (l.place_modifyPlace r r' _).trans (if_neg (Ne.symm h))

theorem place_captureOffset_of_ne {keep : Bool} (h : t ≠ s) (r : Ref s) (r' : Ref t)
    (o : UInt32) : (l.captureOffset keep r o).place r' = l.place r' := by
  cases keep with
  | false => rfl
  | true => exact l.place_modifyPlace_of_ne (Ne.symm h) r r' _

theorem place_captureOffset_self (keep : Bool) (r : Ref s) (o : UInt32) :
    (l.captureOffset keep r o).place r =
      if keep then { l.place r with offset := some o } else l.place r := by
  cases keep with
  | false => rfl
  | true => exact (l.place_modifyPlace r r _).trans (if_pos rfl)

@[simp] theorem size_place_captureOffset (keep : Bool) (r : Ref s) (r' : Ref t) (o : UInt32) :
    ((l.captureOffset keep r o).place r').size = (l.place r').size := by
  cases keep with
  | false => rfl
  | true =>
    by_cases h : s = t
    · subst h
      change ((l.modifyPlace r _).place r').size = _
      rw [place_modifyPlace]
      split <;> rfl
    · exact congrArg Place.size (l.place_modifyPlace_of_ne h r r' _)

/-- Recording the size that is known already changes no place. -/
theorem place_setSize_of_eq {r : Ref s} {size : UInt32} (h : (l.place r).size = size)
    (r' : Ref t) : (l.setSize r size).place r' = l.place r' := by
  rw [setSize]
  by_cases hst : s = t
  · subst hst
    rw [place_modifyPlace]
    split
    · rename_i hr
      rw [← hr, ← h]
    · rfl
  · rw [l.place_modifyPlace_of_ne hst]

/-- Recording an offset and then a size records a place. -/
theorem setSize_setOffset (r : Ref s) (o : Option UInt32) (size : UInt32) :
    (l.setOffset r o).setSize r size = l.setPlace r ⟨o, size⟩ := by
  unfold setSize setOffset setPlace modifyPlace
  congr 1
  refine PerSection.ext_get fun t => ?_
  simp only [PerSection.get_modify]
  split
  · exact SectionLayout.modifyPlace_modifyPlace ..
  · rfl

/-- The sizes of different entities can be recorded in either order. -/
theorem setSize_comm {r r' : Ref s} (h : r ≠ r') (size size' : UInt32) :
    (l.setSize r size).setSize r' size' = (l.setSize r' size').setSize r size := by
  unfold setSize modifyPlace
  congr 1
  refine PerSection.ext_get fun t => ?_
  simp only [PerSection.get_modify]
  split
  · exact SectionLayout.modifyPlace_comm _ _ (fun hpos => h (Ref.pos_inj.mp hpos)) _ _
  · rfl

/-! ## Offsets of sections -/

@[simp] theorem sectionOffset_modifyPlace (r : Ref s) (f : Place → Place) :
    (l.modifyPlace r f).sectionOffset t = l.sectionOffset t := by
  simp only [sectionOffset, modifyPlace, PerSection.get_modify]
  split <;> simp

@[simp] theorem sectionOffset_setPlace (r : Ref s) (p : Place) :
    (l.setPlace r p).sectionOffset t = l.sectionOffset t :=
  l.sectionOffset_modifyPlace r _

@[simp] theorem sectionOffset_setOffset (r : Ref s) (o : Option UInt32) :
    (l.setOffset r o).sectionOffset t = l.sectionOffset t :=
  l.sectionOffset_modifyPlace r _

@[simp] theorem sectionOffset_setSize (r : Ref s) (size : UInt32) :
    (l.setSize r size).sectionOffset t = l.sectionOffset t :=
  l.sectionOffset_modifyPlace r _

theorem sectionOffset_setSectionOffset (o : Option UInt32) :
    (l.setSectionOffset s o).sectionOffset t = if s = t then o else l.sectionOffset t := by
  simp only [sectionOffset, setSectionOffset, PerSection.get_modify]
  split <;> rfl

theorem sectionOffset_clearOffsets : l.clearOffsets.sectionOffset s = none := by
  simp [sectionOffset, clearOffsets, SectionLayout.clear]

/-! ## Layouts that keep offsets -/

/-- The layout `l'` keeps every offset that `l` assigns to an entity. -/
def Extends (l l' : Layout) : Prop :=
  ∀ (s : Section) (r : Ref s) (o : UInt32), (l.place r).offset = some o → (l'.place r).offset = some o

variable {l} {l' l'' : Layout}

theorem Extends.refl (l : Layout) : l.Extends l :=
  fun _ _ _ h => h

theorem Extends.trans (h : l.Extends l') (h' : l'.Extends l'') : l.Extends l'' :=
  fun s r o ho => h' s r o (h s r o ho)

/-- Changing the place of an entity extends a layout if it keeps the offset of that entity. -/
theorem extends_modifyPlace (r : Ref s) (f : Place → Place)
    (h : ∀ o, (l.place r).offset = some o → (f (l.place r)).offset = some o) :
    l.Extends (l.modifyPlace r f) := by
  intro t r' o ho
  by_cases hst : s = t
  · subst hst
    rw [place_modifyPlace]
    split
    · rename_i hr
      subst hr
      exact h o ho
    · exact ho
  · rwa [place_modifyPlace_of_ne _ hst]

theorem extends_setPlace {r : Ref s} (h : (l.place r).offset = none) (p : Place) :
    l.Extends (l.setPlace r p) :=
  extends_modifyPlace r _ fun o ho => by rw [h] at ho; cases ho

theorem offsetOf_eq_ok_iff {r : Ref s} {o : UInt32} :
    l.offsetOf r = .ok o ↔ (l.place r).offset = some o := by
  unfold offsetOf
  cases (l.place r).offset <;> simp

theorem Extends.offsetOf (h : l.Extends l') {r : Ref s} {o : UInt32} (ho : l.offsetOf r = .ok o) :
    l'.offsetOf r = .ok o :=
  offsetOf_eq_ok_iff.mpr (h s r o (offsetOf_eq_ok_iff.mp ho))

theorem Extends.offsetOrZero (h : l.Extends l') {r : Option (Ref s)} {o : UInt32}
    (ho : l.offsetOrZero r = .ok o) : l'.offsetOrZero r = .ok o := by
  cases r with
  | none => exact ho
  | some r => exact h.offsetOf ho

end Layout

end DexGraph
