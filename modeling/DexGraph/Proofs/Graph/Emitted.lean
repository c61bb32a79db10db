import DexGraph.Proofs.Graph.References
import DexGraph.Writing.Code

/-!
# The entities that a fresh image holds

`Graph.Emitted g s r` says that an image that is laid out anew holds the entity `r`: every entity
is held, except bodies that only native methods or no methods have, and debug info that no such
body has. Whatever an emitted entity names by offset is emitted too
(`Graph.Sound.allOffsets_emitted`), and `Section.offsetTargets` lists the sections in which it lies.
-/

namespace DexGraph

namespace Graph

/-- A method that is not native has the body. -/
def UsesBody (g : Graph) (r : Ref .codeItem) : Prop :=
  ∃ (c : Ref .classData) (members : ClassData), g.get? c = some members ∧
    ∃ m ∈ members.allMethods, m.body? = some r

/-- An image that is laid out anew holds the entity. -/
def Emitted (g : Graph) : (s : Section) → Ref s → Prop
  | .codeItem, r => g.Has .codeItem r ∧ g.UsesBody r
  | .debugInfo, r =>
    g.Has .debugInfo r ∧ ∃ (c : Ref .codeItem) (code : CodeItem), g.get? c = some code ∧
      g.UsesBody c ∧ code.debugInfo = some r
  | s, r => g.Has s r

variable {g : Graph} {s : Section}

theorem Emitted.has {r : Ref s} (h : g.Emitted s r) : g.Has s r := by
  cases s with
  | codeItem => exact h.1
  | debugInfo => exact h.1
  | _ => exact h

theorem Sound.allOffsets_emitted (hg : g.Sound) {r : Ref s} {x : s.Content} (hr : g.Emitted s r)
    (hx : g.get? r = some x) : s.AllOffsets g.Emitted x := by
  have hall := (hg.refs s r x hx).allOffsets
  cases s with
  | codeItem => exact fun d hd => ⟨hall d hd, r, x, hx, hr.2, hd⟩
  | classData => exact fun m hm c hc => ⟨hall m hm c hc, r, x, hx, m, hm, hc⟩
  | _ => exact hall

end Graph

/-- The sections whose entities an entity of the section names by offset. -/
def Section.offsetTargets : Section → List Section
  | .stringId => [.stringData]
  | .protoId => [.typeList]
  | .classDef => [.typeList, .annotationsDirectory, .classData, .encodedArray]
  | .callSiteId => [.encodedArray]
  | .annotationSet => [.annotationItem]
  | .annotationSetRefList => [.annotationSet]
  | .annotationsDirectory => [.annotationSet, .annotationSetRefList]
  | .codeItem => [.debugInfo]
  | .classData => [.codeItem]
  | _ => []

theorem Section.AllOffsets.mono {p q : (t : Section) → Ref t → Prop} {s : Section}
    {x : s.Content} (h : s.AllOffsets p x)
    (hpq : ∀ t ∈ s.offsetTargets, ∀ r, p t r → q t r) : s.AllOffsets q x := by
  cases s with
  | stringId => exact hpq .stringData (by decide) _ h
  | protoId => exact fun r hr => hpq .typeList (by decide) _ (h r hr)
  | classDef =>
    exact ⟨fun r hr => hpq .typeList (by decide) _ (h.1 r hr),
      fun r hr => hpq .annotationsDirectory (by decide) _ (h.2.1 r hr),
      fun r hr => hpq .classData (by decide) _ (h.2.2.1 r hr),
      fun r hr => hpq .encodedArray (by decide) _ (h.2.2.2 r hr)⟩
  | callSiteId => exact hpq .encodedArray (by decide) _ h
  | annotationSet => exact fun r hr => hpq .annotationItem (by decide) _ (h r hr)
  | annotationSetRefList => exact fun o ho r hr => hpq .annotationSet (by decide) _ (h o ho r hr)
  | annotationsDirectory =>
    exact ⟨fun r hr => hpq .annotationSet (by decide) _ (h.1 r hr),
      fun e he r hr => hpq .annotationSet (by decide) _ (h.2.1 e he r hr),
      fun e he r hr => hpq .annotationSet (by decide) _ (h.2.2.1 e he r hr),
      fun e he r hr => hpq .annotationSetRefList (by decide) _ (h.2.2.2 e he r hr)⟩
  | codeItem => exact fun r hr => hpq .debugInfo (by decide) _ (h r hr)
  | classData => exact fun m hm r hr => hpq .codeItem (by decide) _ (h m hm r hr)
  | _ => trivial

/-! ## Bodies in use -/

namespace Graph

variable {g : Graph} {s : Section}

/-- Puts the slot of a reference into a set, if there is one. -/
def mark (marked : Std.TreeSet UInt32) : Option (Ref s) → Std.TreeSet UInt32
  | some r => marked.insert r.slot
  | none => marked

/-- What a set contains that is built up from a list. -/
theorem contains_foldl_mark {α : Type} {step : Std.TreeSet UInt32 → α → Std.TreeSet UInt32}
    (ref? : α → Option (Ref s)) (hstep : ∀ marked x, step marked x = mark marked (ref? x))
    (xs : List α) (start : Std.TreeSet UInt32) {r : Ref s} :
    (xs.foldl step start).contains r.slot ↔
      start.contains r.slot ∨ ∃ x ∈ xs, ref? x = some r := by
  induction xs generalizing start with
  | nil => simp
  | cons x xs ih =>
    rw [List.foldl_cons, ih, hstep]
    cases hx : ref? x with
    | none => simp [mark, hx]
    | some r' =>
      have hslot : r'.slot = r.slot ↔ r' = r := by
        cases r
        cases r'
        simp
      simp only [mark, Std.TreeSet.contains_insert, List.mem_cons, exists_eq_or_imp, hx,
        Option.some.injEq, Bool.or_eq_true, beq_iff_eq, Std.compare_eq_iff_eq, hslot]
      tauto

/-- What a set contains that is built up from nothing. -/
theorem contains_mark_array {α : Type} {step : Std.TreeSet UInt32 → α → Std.TreeSet UInt32}
    (ref? : α → Option (Ref s)) (hstep : ∀ marked x, step marked x = mark marked (ref? x))
    (xs : Array α) {r : Ref s} :
    (xs.foldl step (∅ : Std.TreeSet UInt32)).contains r.slot ↔ ∃ x ∈ xs.toList, ref? x = some r := by
  rw [← Array.foldl_toList, contains_foldl_mark ref? hstep]
  simp

theorem mem_entries_iff {c : Collection s} (hc : c.Coherent) {r : Ref s} {x : s.Content} :
    (r, x) ∈ c.entries ↔ c.get? r = some x := by
  unfold Collection.entries
  rw [Array.mem_filterMap]
  constructor
  · rintro ⟨r', -, h⟩
    obtain ⟨x', hx', heq⟩ := Option.map_eq_some_iff.mp h
    cases heq
    exact hx'
  · intro h
    refine ⟨r, (hc.mem_order_iff r).mpr ?_, by rw [h]; rfl⟩
    exact (Array.getElem?_eq_some_iff.mp h).1

theorem contains_liveCode_iff (hg : g.Sound) {r : Ref .codeItem} :
    g.liveCode.contains r.slot ↔ g.UsesBody r := by
  have hmembers {step : Std.TreeSet UInt32 → Ref .classData × ClassData → Std.TreeSet UInt32}
      (hstep : ∀ live p, (step live p).contains r.slot ↔
        live.contains r.slot ∨ ∃ m ∈ p.2.allMethods, m.body? = some r)
      (xs : List (Ref .classData × ClassData)) (live : Std.TreeSet UInt32) :
      (xs.foldl step live).contains r.slot ↔ live.contains r.slot ∨ ∃ p ∈ xs, ∃ m ∈ p.2.allMethods, m.body? = some r := by
    induction xs generalizing live with
    | nil => simp
    | cons p xs ih => rw [List.foldl_cons, ih, hstep, List.exists_mem_cons_iff, or_assoc]
  unfold liveCode
  rw [← Array.foldl_toList]
  refine (hmembers ?_ _ _).trans ?_
  · rintro live ⟨c, members⟩
    change (members.allMethods.foldl _ live).contains r.slot ↔ _
    rw [← Array.foldl_toList, contains_foldl_mark MethodItem.body? fun marked m => ?_]
    · simp only [Array.mem_toList_iff]
    · cases m.body? <;> rfl
  unfold UsesBody
  simp only [Std.TreeSet.contains_emptyc, Bool.false_eq_true, false_or, Array.mem_toList_iff,
    Prod.exists]
  constructor
  · rintro ⟨c, members, hmem, h⟩
    exact ⟨c, members, (mem_entries_iff (hg.coherent .classData)).mp hmem, h⟩
  · rintro ⟨c, members, hget, h⟩
    exact ⟨c, members, (mem_entries_iff (hg.coherent .classData)).mpr hget, h⟩

end Graph

end DexGraph
