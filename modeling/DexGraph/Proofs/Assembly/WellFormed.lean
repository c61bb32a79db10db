import DexGraph.Proofs.Assembly.MethodHandles
import DexGraph.Proofs.Assembly.Sharing
import DexGraph.Proofs.Assembly.Shown
import DexGraph.Proofs.Writing.ClassFlags

/-!
# Well-formed graphs

An image that is laid out anew does not hold everything that a graph can hold: items to which
nothing leads are never read again, and a graph whose version is not supported is not read at all.
`Graph.WellFormed g` says that nothing of the kind is in the way. Then everything can be read when
it is met: the tables are read in the order of `Section.turn`, their entries name tables with smaller
turns only, and so do the data items to which they lead (`Graph.WellFormed.inReach_of_link`).
-/

namespace DexGraph

/-! ## The order of the tables -/

/-- When the table of a section is read. -/
def Section.turn : Section → Nat
  | stringId => 0
  | typeId => 1
  | protoId => 2
  | fieldId => 3
  | methodId => 4
  | classDef => 5
  | methodHandle => 6
  | callSiteId => 7
  | _ => 8

namespace Value

mutual

/-- Values name entries of the tables that are read before the classes, and method handles. -/
theorem allRefs_turn : ∀ v : Value, v.AllRefs fun t _ => t.turn < 5 ∨ t = .methodHandle
  | .methodType _ | .methodHandle _ | .string _ | .type _ | .field _ | .method _ | .enum _ => by
    simp [AllRefs, Section.turn]
  | .array values => allRefsEach_turn values
  | .annotated _ elements => ⟨by simp [Section.turn], allRefsElements_turn elements⟩
  | .byte _ | .short _ | .char _ | .int _ | .long _ | .float _ | .double _ | .null | .boolean _ =>
    trivial

theorem allRefsEach_turn : ∀ values : List Value,
    AllRefsEach (fun t _ => t.turn < 5 ∨ t = .methodHandle) values
  | [] => trivial
  | v :: rest => ⟨allRefs_turn v, allRefsEach_turn rest⟩

theorem allRefsElements_turn : ∀ elements : List (Ref .stringId × Value),
    AllRefsElements (fun t _ => t.turn < 5 ∨ t = .methodHandle) elements
  | [] => trivial
  | (_, v) :: rest => ⟨by simp [Section.turn], allRefs_turn v, allRefsElements_turn rest⟩

end

end Value

namespace Section

variable {s t : Section} {x : s.Content} {p : (t : Section) → Ref t → Prop} {k k' : Nat}

/-- The references to data items are links. -/
theorem allRefs_of_links (h : ∀ (t : Section) (q : Ref t), ⟨t, some q⟩ ∈ s.links x → p t q) :
    s.AllRefs (fun t r => t.rowSize? = none → p t r) x := by
  have hrow {t : Section} (ht : t.rowSize? ≠ none) {r : Ref t} (hr : t.rowSize? = none) : p t r :=
    absurd hr ht
  have hlink {t : Section} {r : Option (Ref t)} (hmem : ⟨t, r⟩ ∈ s.links x) :
      ∀ q ∈ r, t.rowSize? = none → p t q := by
    rintro q rfl -
    exact h t q hmem
  cases s with
  | stringData | debugInfo => trivial
  | stringId | callSiteId => exact hlink List.mem_cons_self _ rfl
  | typeId => exact hrow (by decide)
  | typeList => exact fun r _ => hrow (by decide)
  | protoId => exact ⟨hrow (by decide), hrow (by decide), hlink List.mem_cons_self⟩
  | fieldId | methodId => exact ⟨hrow (by decide), hrow (by decide), hrow (by decide)⟩
  | classDef =>
    exact ⟨hrow (by decide), fun _ _ => hrow (by decide), hlink (by simp [links]),
      fun _ _ => hrow (by decide), hlink (by simp [links]), hlink (by simp [links]),
      hlink (by simp [links])⟩
  | methodHandle =>
    obtain ⟨kind, target⟩ := x
    cases target with
    | field r => exact hrow (by decide)
    | method r => exact hrow (by decide)
  | encodedArray =>
    exact Value.AllRefsEach.mono (fun t ht r _ => hrow ht) (Value.allRefsEach_turn _)
  | annotationItem =>
    exact ⟨hrow (by decide),
      Value.AllRefsElements.mono (fun t ht r _ => hrow ht) (Value.allRefsElements_turn _)⟩
  | annotationSet =>
    exact fun r hr => hlink (List.mem_map.mpr ⟨r, Array.mem_toList_iff.mpr hr, rfl⟩) r rfl
  | annotationSetRefList =>
    exact fun o ho => hlink (List.mem_map.mpr ⟨o, Array.mem_toList_iff.mpr ho, rfl⟩)
  | annotationsDirectory =>
    refine ⟨hlink (by simp [links]), fun e he => ⟨hrow (by decide), hlink ?_⟩,
      fun e he => ⟨hrow (by decide), hlink ?_⟩, fun e he => ⟨hrow (by decide), hlink ?_⟩⟩
    · exact List.mem_append_left _ (List.mem_append_left _ (List.mem_append_right _
        (List.mem_map.mpr ⟨e, Array.mem_toList_iff.mpr he, rfl⟩)))
    · exact List.mem_append_left _ (List.mem_append_right _
        (List.mem_map.mpr ⟨e, Array.mem_toList_iff.mpr he, rfl⟩))
    · exact List.mem_append_right _ (List.mem_map.mpr ⟨e, Array.mem_toList_iff.mpr he, rfl⟩)
  | codeItem => exact ⟨hlink List.mem_cons_self, fun _ _ _ _ _ _ => hrow (by decide)⟩
  | classData =>
    exact ⟨fun _ _ => hrow (by decide), fun m hm => ⟨hrow (by decide),
      hlink (List.mem_map.mpr ⟨m, Array.mem_toList_iff.mpr hm, rfl⟩)⟩⟩

/-- The tables that the content of an entity names are read before the turn. -/
def InReach (s : Section) (k : Nat) (x : s.Content) : Prop :=
  s.AllRefs (fun t _ => t.rowSize? ≠ none → t.turn < k) x

theorem InReach.mono (h : s.InReach k x) (hk : k ≤ k') : s.InReach k' x :=
  AllRefs.mono h fun _ _ ht hrow => (ht hrow).trans_le hk

/-- The entries of a table name tables that are read before. -/
theorem inReach_row (hs : s.rowSize? ≠ none) (x : s.Content) : s.InReach s.turn x := by
  cases s with
  | methodHandle =>
    obtain ⟨kind, target⟩ := x
    cases target with
    | field r => exact fun _ => by decide
    | method r => exact fun _ => by decide
  | stringId | typeId | protoId | fieldId | methodId | classDef | callSiteId =>
    simp [InReach, AllRefs, turn, rowSize?]
  | _ => exact absurd rfl hs

/-- Data items name tables that are read before the classes, and method handles. -/
theorem allRefs_item (hs : s.rowSize? = none) (x : s.Content) :
    s.AllRefs (fun t _ => t.rowSize? ≠ none → t.turn < 5 ∨ t = .methodHandle) x := by
  cases s with
  | encodedArray =>
    exact Value.AllRefsEach.mono (fun t _ _ ht (_ : t.rowSize? ≠ none) => ht)
      (Value.allRefsEach_turn _)
  | annotationItem =>
    exact ⟨fun _ => by simp [turn], Value.AllRefsElements.mono
      (fun t _ _ ht (_ : t.rowSize? ≠ none) => ht) (Value.allRefsElements_turn _)⟩
  | stringData | typeList | annotationSet | annotationSetRefList | annotationsDirectory | debugInfo
  | codeItem | classData => simp [AllRefs, turn, rowSize?]
  | _ => cases hs

theorem inReach_item (hs : s.rowSize? = none) (x : s.Content) : s.InReach 7 x :=
  (allRefs_item hs x).mono fun t _ ht hrow => by
    rcases ht hrow with hlt | rfl
    · omega
    · decide

theorem HandleFree.inReach (h : s.HandleFree x) (hs : s.rowSize? = none) : s.InReach 5 x :=
  ((allRefs_item hs x).and h).mono fun _ _ ht hrow => (ht.1 hrow).resolve_right ht.2

/-- Only values name method handles. -/
theorem handleFree_of_ne (hs : s.rowSize? = none) (harray : s ≠ .encodedArray)
    (hnotes : s ≠ .annotationItem) (x : s.Content) : s.HandleFree x := by
  cases s with
  | encodedArray => exact absurd rfl harray
  | annotationItem => exact absurd rfl hnotes
  | stringData | typeList | annotationSet | annotationSetRefList | annotationsDirectory | debugInfo
  | codeItem | classData => simp [HandleFree, AllRefs]
  | _ => cases hs

end Section

/-! ## Well-formed graphs -/

namespace Graph

variable {g : Graph} {s t : Section}

/-- The entity is an entry of a table, or links lead to it from one. -/
inductive Reached (g : Graph) : (s : Section) → Ref s → Prop
  | row {s : Section} {r : Ref s} (hs : s.rowSize? ≠ none) (hr : g.Has s r) : Reached g s r
  | link {s t : Section} {r : Ref s} {q : Ref t} {x : s.Content} (hr : Reached g s r)
      (hx : g.get? r = some x) (hq : ⟨t, some q⟩ ∈ s.links x) : Reached g t q

/-- The graph can be held by an image as it is: its references name entities, its version is
supported, every entity can be read back by itself, and every data item is reached from a table.
Only arrays of call sites name method handles, and hidden-API flags are there for every class if for
any. -/
structure WellFormed (g : Graph) : Prop where
  sound : g.Sound
  acceptable : g.Acceptable
  entities : ∀ (s : Section) (r : Ref s) (x : s.Content), g.get? r = some x → s.WellFormed x
  reached : ∀ (s : Section) (r : Ref s), s.rowSize? = none → g.Has s r → g.Reached s r
  annotations : ∀ (r : Ref .annotationItem) (x : AnnotationItem), g.get? r = some x →
    Section.annotationItem.HandleFree x
  staticValues : ∀ (r : Ref .classDef) (c : ClassDef), g.get? r = some c →
    ∀ array ∈ c.staticValues, ∀ x, g.get? array = some x → Section.encodedArray.HandleFree x
  flagsFit : g.FlagsFit
  hiddenapi : ∀ h, g.hiddenapi = some h → h.flags.size = g.count .classDef

namespace WellFormed

variable (hg : g.WellFormed)
include hg

/-- Only class data links to bodies, by methods that are not native. -/
theorem usesBody_of_link {r : Ref s} {x : s.Content} (hx : g.get? r = some x)
    {q : Ref .codeItem} (hq : ⟨.codeItem, some q⟩ ∈ s.links x) : g.UsesBody q := by
  cases s with
  | classData =>
    obtain ⟨m, hm, heq⟩ := List.mem_map.mp hq
    have hcode : m.code = some q := by simpa using heq
    have hmem := Array.mem_toList_iff.mp hm
    exact ⟨r, x, hx, m, hmem, (hg.entities _ r x hx m hmem).body?.trans hcode⟩
  | _ => simp [Section.links] at hq

omit hg in
/-- Only bodies link to debug info. -/
theorem code_of_link {r : Ref s} {x : s.Content} (hx : g.get? r = some x) {q : Ref .debugInfo}
    (hq : ⟨.debugInfo, some q⟩ ∈ s.links x) :
    ∃ (c : Ref .codeItem) (code : CodeItem), g.get? c = some code ∧ code.debugInfo = some q := by
  cases s with
  | codeItem =>
    have heq := List.mem_singleton.mp hq
    exact ⟨r, x, hx, by simpa [eq_comm] using heq⟩
  | _ => simp [Section.links] at hq

/-- Everything that a well-formed graph has is there in an image. -/
theorem emitted {r : Ref s} (hr : g.Has s r) : g.Emitted s r := by
  have hcode (c : Ref .codeItem) (hc : g.Has .codeItem c) : g.UsesBody c := by
    cases hg.reached _ c rfl hc with
    | row hs => exact absurd rfl hs
    | link hr hx hq => exact hg.usesBody_of_link hx hq
  cases s with
  | codeItem => exact ⟨hr, hcode r hr⟩
  | debugInfo =>
    refine ⟨hr, ?_⟩
    cases hg.reached _ r rfl hr with
    | row hs => exact absurd rfl hs
    | link _ hx hq =>
      obtain ⟨c, code, hc, hdebug⟩ := code_of_link hx hq
      exact ⟨c, code, hc, hcode c (has_of_get? hc), hdebug⟩
  | _ => exact hr

/-- No method handle is named by what a class leads to. -/
theorem handleFree_of_link (hs : s ≠ .callSiteId) {r : Ref s} {x : s.Content}
    (hx : g.get? r = some x) {q : Ref t} (hq : ⟨t, some q⟩ ∈ s.links x) {y : t.Content}
    (hy : g.get? q = some y) : t.HandleFree y := by
  by_cases hnotes : t = .annotationItem
  · subst hnotes
    exact hg.annotations q y hy
  by_cases harray : t = .encodedArray
  · subst harray
    cases s with
    | classDef =>
      have hvalues : x.staticValues = some q := by simpa [Section.links, eq_comm] using hq
      exact hg.staticValues r x hx q hvalues y hy
    | callSiteId => exact absurd rfl hs
    | _ => simp [Section.links] at hq
  exact Section.handleFree_of_ne (Section.rowSize?_of_mem_links hq) harray hnotes y

/-- What an entity leads to names only tables that are read before its own, or before the classes
if it is a data item. -/
theorem inReach_of_link {r : Ref s} {x : s.Content} (hx : g.get? r = some x) {q : Ref t}
    (hq : ⟨t, some q⟩ ∈ s.links x) {y : t.Content} (hy : g.get? q = some y) :
    t.InReach (if s.rowSize? = none then 5 else s.turn) y := by
  have ht := Section.rowSize?_of_mem_links hq
  cases s with
  | callSiteId => exact Section.inReach_item ht y
  | classDef => exact (hg.handleFree_of_link (by decide) hx hq hy).inReach ht
  | stringId =>
    obtain ⟨rfl, -⟩ := Sigma.mk.inj_iff.mp (List.mem_singleton.mp hq)
    trivial
  | protoId =>
    obtain ⟨rfl, -⟩ := Sigma.mk.inj_iff.mp (List.mem_singleton.mp hq)
    exact fun _ _ _ => by decide
  | typeId | fieldId | methodId | methodHandle => simp [Section.links] at hq
  | _ => exact (hg.handleFree_of_link (by decide) hx hq hy).inReach ht

end WellFormed

/-- The graph with one method is well formed. -/
theorem oneMethod_wellFormed : oneMethod.WellFormed where
  sound := oneMethod_sound
  acceptable := ⟨⟨rfl, 35, rfl, by decide, by decide⟩, rfl⟩
  entities s r x h := by
    have hmem := Array.mem_of_getElem? h
    cases s with
    | stringData =>
      simp [oneMethod, entities] at hmem
      rcases hmem with rfl | rfl | rfl <;> simp [Section.WellFormed]
    | debugInfo =>
      simp [oneMethod, entities] at hmem
      subst hmem
      exact rfl
    | classData =>
      simp [oneMethod, entities] at hmem
      subst hmem
      unfold Section.WellFormed MethodItem.WellFormed
      decide
    | codeItem =>
      simp [oneMethod, entities] at hmem
      subst hmem
      refine ⟨fun handler hmem => ?_, by simp, [_], .refl _, rfl, trivial⟩
      obtain rfl := List.mem_singleton.mp (Array.mem_toList_iff.mpr hmem)
      exact ⟨by decide, fun _ => ⟨0, rfl⟩, by simp⟩
    | methodHandle => simp [oneMethod, entities, empty, withMagic] at hmem
    | _ => trivial
  reached s r hs hr := by
    have hrow {t : Section} (ht : t.rowSize? ≠ none) {q : Ref t} {x : t.Content}
        (hx : oneMethod.get? q = some x) : oneMethod.Reached t q := .row ht (has_of_get? hx)
    have hclass : oneMethod.Reached .classData ⟨0⟩ :=
      .link (hrow (t := .classDef) (q := ⟨0⟩) (by decide) rfl) rfl (by decide)
    have hcode : oneMethod.Reached .codeItem ⟨0⟩ := .link hclass rfl (by decide)
    have hdebug : oneMethod.Reached .debugInfo ⟨0⟩ := .link hcode rfl (by decide)
    have hfirst {t : Section} (q : Ref t) (hq : q.pos < 1) : q = ⟨0⟩ := by
      obtain ⟨slot⟩ := q
      have hzero : slot = 0 := UInt32.toNat_inj.mp (Nat.lt_one_iff.mp hq)
      rw [hzero]
    have hstring (slot : UInt32)
        (hx : oneMethod.get? (⟨slot⟩ : Ref .stringId) = some ⟨⟨slot⟩⟩) :
        oneMethod.Reached .stringData ⟨slot⟩ :=
      .link (hrow (by decide) hx) hx List.mem_cons_self
    cases s with
    | stringData =>
      obtain ⟨slot⟩ := r
      have hlt : slot.toNat < 3 := hr
      have hslot : slot = 0 ∨ slot = 1 ∨ slot = 2 := by
        simp only [← UInt32.toNat_inj, UInt32.reduceToNat]
        omega
      rcases hslot with rfl | rfl | rfl <;> exact hstring _ rfl
    | classData => exact hfirst r hr ▸ hclass
    | codeItem => exact hfirst r hr ▸ hcode
    | debugInfo => exact hfirst r hr ▸ hdebug
    | typeList | encodedArray | annotationItem | annotationSet | annotationSetRefList
    | annotationsDirectory => exact absurd hr (Nat.not_lt_zero _)
    | _ => cases hs
  annotations r x h := by
    have hmem := Array.mem_of_getElem? h
    simp [oneMethod, entities, empty, withMagic] at hmem
  staticValues r c h array harray := by
    have hmem := Array.mem_of_getElem? h
    simp [oneMethod, entities] at hmem
    subst hmem
    simp at harray
  flagsFit := flagsFit_of_hiddenapi_eq_none rfl
  hiddenapi h hflags := by cases hflags

end Graph

end DexGraph
