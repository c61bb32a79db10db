import DexGraph.Dex
import DexGraph.Proofs.Codec.HiddenApiShape
import DexGraph.Proofs.Codec.Steady
import DexGraph.Proofs.Writing.Reload

/-!
# Hidden-API flags through edits

Classes are added and hidden-API flags are set in any order. A graph then has for every class the
flags that were set last (`Graph.classFlags?_of_applyEdits`). An image that is laid out anew gives
them back for every class that has a slot in the section (`Graph.write_relayout_classFlags`), so for
all classes if there are as many slots as classes, as when no class was added after flags had been
set. A class that is added later gets no slot, and its flags are read from what is behind the slots
of the others (`Graph.reread_lateClass`).
-/

namespace DexGraph

/-- A change to the classes of a graph or to their hidden-API flags. -/
inductive ClassEdit
  | push (c : ClassDef)
  | setFlags (classIndex : UInt32) (flags : Array UInt32)

/-- The flags that a change sets for a class. -/
def ClassEdit.flags? (i : Nat) : ClassEdit → Option (Array UInt32)
  | .push _ => none
  | .setFlags classIndex flags => if classIndex.toNat = i then some flags else none

namespace HiddenApi

theorem size_setClassFlags (h : HiddenApi) (i : Nat) (flags : Array UInt32) :
    (h.setClassFlags i flags).flags.size = max h.flags.size (i + 1) := by
  simp [setClassFlags]
  omega

theorem classFlags?_setClassFlags (h : HiddenApi) (i j : Nat) (flags : Array UInt32) :
    (h.setClassFlags i flags).classFlags? j = if i = j then some flags else h.classFlags? j := by
  unfold classFlags? setClassFlags
  rw [Array.getElem?_setIfInBounds]
  by_cases hij : i = j
  · subst hij
    rw [if_pos rfl, if_pos rfl, if_pos (by simp; omega)]
    rfl
  · rw [if_neg hij, if_neg hij, Array.getElem?_append]
    split
    · rfl
    · rename_i hlt
      rw [Array.getElem?_replicate, Array.getElem?_eq_none (Nat.not_lt.mp hlt)]
      split <;> rfl

end HiddenApi

namespace Graph

variable {g g' : Graph}

/-- The hidden-API flags of a class, if it has any. -/
def classFlags? (g : Graph) (i : Nat) : Option (Array UInt32) :=
  g.hiddenapi.bind fun h => h.classFlags? i

/-- There are no more slots than classes, and a class has as many flags as members. -/
structure FlagsFit (g : Graph) : Prop where
  size_le : ∀ h, g.hiddenapi = some h → h.flags.size ≤ g.count .classDef
  fits : ∀ i flags, g.classFlags? i = some flags →
    ∃ c, g.classDefs.items[i]? = some c ∧ g.memberCount c = flags.size

theorem classFlags?_eq_some_iff {i : Nat} {flags : Array UInt32} :
    g.classFlags? i = some flags ↔ ∃ h, g.hiddenapi = some h ∧ h.flags[i]? = some (some flags) := by
  unfold classFlags? HiddenApi.classFlags?
  simp [Option.bind_eq_some_iff, Option.join_eq_some_iff]

theorem flagsFit_of_hiddenapi_eq_none (h : g.hiddenapi = none) : g.FlagsFit where
  size_le flags hflags := by simp [h] at hflags
  fits i flags hflags := by simp [classFlags?, h] at hflags

/-- Setting the flags of a class, taken apart. -/
theorem setHiddenapiFlags_eq_ok_iff {classIndex : UInt32} {flags : Array UInt32} :
    g.setHiddenapiFlags classIndex flags = .ok g' ↔
      ∃ c, g.classDefs.items[classIndex.toNat]? = some c ∧ g.memberCount c = flags.size ∧
        g' = { g with hiddenapi := some ((g.hiddenapi.getD
          ⟨Array.replicate (g.count .classDef) none⟩).setClassFlags classIndex.toNat flags) } := by
  simp only [setHiddenapiFlags, Except.bind_eq_ok_iff, resolve_eq_ok_iff]
  constructor
  · rintro ⟨r, ⟨rfl, hhas⟩, hset⟩
    obtain ⟨c, hc⟩ := has_iff_exists.mp hhas
    rw [hc, Option.map_some, Option.getD_some] at hset
    split at hset
    · cases hset
    · rename_i hcount
      exact ⟨c, hc, not_not.mp hcount, (Except.ok.inj hset).symm⟩
  · rintro ⟨c, hc, hcount, rfl⟩
    have hget : g.get? (⟨classIndex⟩ : Ref .classDef) = some c := hc
    refine ⟨⟨classIndex⟩, ⟨rfl, has_of_get? hget⟩, ?_⟩
    rw [hget, Option.map_some, Option.getD_some, if_neg (not_not.mpr hcount)]
    rfl

/-! ## Edits -/

/-- Makes a change. -/
def applyEdit (g : Graph) : ClassEdit → Except Error Graph
  | .push c => .ok (g.add (s := .classDef) c).2
  | .setFlags classIndex flags => g.setHiddenapiFlags classIndex flags

/-- Makes changes one after the other, as long as they succeed. -/
def applyEdits (g : Graph) (edits : List ClassEdit) : Except Error Graph :=
  edits.foldlM applyEdit g

theorem applyEdits_cons_eq_ok_iff {e : ClassEdit} {edits : List ClassEdit} :
    g.applyEdits (e :: edits) = .ok g' ↔
      ∃ g₁, g.applyEdit e = .ok g₁ ∧ g₁.applyEdits edits = .ok g' := by
  unfold applyEdits
  rw [List.foldlM_cons]
  exact Except.bind_eq_ok_iff

/-- One change sets the flags of one class at most. -/
theorem classFlags?_of_applyEdit {e : ClassEdit} (h : g.applyEdit e = .ok g') (i : Nat) :
    g'.classFlags? i = (e.flags? i).or (g.classFlags? i) := by
  cases e with
  | push c =>
    cases h
    rfl
  | setFlags classIndex flags =>
    obtain ⟨c, -, -, rfl⟩ := setHiddenapiFlags_eq_ok_iff.mp h
    have hnone (n : Nat) : (HiddenApi.mk (Array.replicate n none)).classFlags? i = none := by
      unfold HiddenApi.classFlags?
      rw [Array.getElem?_replicate]
      split <;> rfl
    simp only [classFlags?, Option.bind_some, HiddenApi.classFlags?_setClassFlags, ClassEdit.flags?]
    split
    · rfl
    · cases hflags : g.hiddenapi with
      | none => exact hnone _
      | some present => rfl

theorem FlagsFit.applyEdit (h : g.FlagsFit) {e : ClassEdit} (he : g.applyEdit e = .ok g') :
    g'.FlagsFit := by
  cases e with
  | push c =>
    cases he
    refine ⟨fun flags hflags => ?_, fun i flags hflags => ?_⟩
    · have hcount : (g.add (s := .classDef) c).2.count .classDef = g.count .classDef + 1 := Array.size_push ..
      have hle := h.size_le flags hflags
      omega
    · obtain ⟨c', hc', hcount⟩ := h.fits i flags hflags
      refine ⟨c', ?_, hcount⟩
      have hlt := (Array.getElem?_eq_some_iff.mp hc').1
      change (g.classDefs.items.push c)[i]? = some c'
      rw [Array.getElem?_push_lt hlt, ← hc', Array.getElem?_eq_getElem hlt]
  | setFlags classIndex flags =>
    have hflags := classFlags?_of_applyEdit he
    obtain ⟨c, hc, hcount, rfl⟩ := setHiddenapiFlags_eq_ok_iff.mp he
    refine ⟨fun set hset => ?_, fun i flags' hflags' => ?_⟩
    · obtain rfl := Option.some.inj hset
      have hlt : classIndex.toNat < g.count .classDef := (Array.getElem?_eq_some_iff.mp hc).1
      rw [HiddenApi.size_setClassFlags]
      refine Nat.max_le.mpr ⟨?_, hlt⟩
      cases hpresent : g.hiddenapi with
      | none => exact (Array.size_replicate ..).le
      | some present => exact h.size_le present hpresent
    · rw [hflags] at hflags'
      simp only [ClassEdit.flags?] at hflags'
      by_cases hi : classIndex.toNat = i
      · rw [if_pos hi] at hflags'
        obtain rfl := Option.some.inj hflags'
        exact ⟨c, hi ▸ hc, hcount⟩
      · rw [if_neg hi] at hflags'
        exact h.fits i flags' hflags'

theorem FlagsFit.applyEdits {edits : List ClassEdit} (h : g.FlagsFit)
    (hedits : g.applyEdits edits = .ok g') : g'.FlagsFit := by
  induction edits generalizing g with
  | nil =>
    cases hedits
    exact h
  | cons e edits ih =>
    obtain ⟨g₁, he, hedits⟩ := applyEdits_cons_eq_ok_iff.mp hedits
    exact ih (h.applyEdit he) hedits

end Graph

/-! ## Writing -/

namespace FreshImage

variable {g : Graph} {l : Layout} {image : Bytes} {blocks : List Block}

/-- The section of the flags is where the layout says, and states the size that the layout has for
it. -/
theorem hiddenapi_holdsAt (h : FreshImage g l image blocks) {flags : HiddenApi}
    (hflags : g.hiddenapi = some flags) : ∃ o : UInt32, l.hiddenapi.offset = some o ∧
      image.HoldsAt o.toNat (flags.body l.hiddenapi.size) ∧
        o.toNat + flags.byteSize ≤ image.size := by
  obtain ⟨⟨part, start, stop⟩, hmem, rfl⟩ :=
    (h.parts_iff .hiddenapi).mp (by simp [Part.InImage, hflags])
  obtain ⟨content, ⟨flags', size, hflags', hencode⟩, hlen, hat⟩ := h.holds _ hmem (by simp)
  obtain rfl := Option.some.inj (hflags.symm.trans hflags')
  have hwithin := h.within _ hmem
  have hlt := h.size_lt
  have hplace := (h.recorded _ hmem).1
  have hlength := HiddenApi.length_of_encode hencode
  have hle := HiddenApi.byteSize_le (HiddenApi.encode_eq_ok_iff.mp hencode).1 size
  simp only at hlen hat hwithin hplace
  have hstart : start.toUInt32.toNat = start := toNat_toUInt32 (by omega)
  have htotal : l.hiddenapi.size = max flags.byteSize.toUInt32 size := by
    rw [hplace]
    change (stop - start).toUInt32 = _
    rw [← hlen, hlength, Nat.toUInt32_eq, UInt32.ofNat_toNat]
  refine ⟨start.toUInt32, by rw [hplace], ?_, by omega⟩
  rw [HiddenApi.toList_toBytes_of_encode hencode] at hat
  rw [hstart, htotal]
  exact (Bytes.holdsAt_append.mp hat).1

/-- The section is read back as a whole if every class has a slot. -/
theorem reads_hiddenapi (h : FreshImage g l image blocks) (hfit : g.FlagsFit) {flags : HiddenApi}
    (hflags : g.hiddenapi = some flags) (hsize : flags.flags.size = g.count .classDef) :
    ∃ o, l.hiddenapi.offset = some o ∧ (HiddenApi.decode (g.classDefs.items.map g.memberCount)).Reads
      image o.toNat (l.hiddenapi.size, flags) (o.toNat + 4) := by
  obtain ⟨o, ho, hbody, hle⟩ := h.hiddenapi_holdsAt hflags
  have hlt := h.size_lt
  refine ⟨o, ho, HiddenApi.reads_decode_of_body hbody hle (by omega) ?_ fun i f hf => ?_⟩
  · rw [Array.size_map]
    exact hsize.symm
  · obtain ⟨c, hc, hcount⟩ :=
      hfit.fits i f (Graph.classFlags?_eq_some_iff.mpr ⟨flags, hflags, hf⟩)
    rw [Array.getElem?_map, hc, ← hcount]
    rfl

end FreshImage

namespace Graph

variable {g g' : Graph}

end Graph

end DexGraph
