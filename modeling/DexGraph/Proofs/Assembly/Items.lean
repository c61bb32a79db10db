import DexGraph.Proofs.Assembly.Follows

/-!
# Data items follow their surveys

Every reader of data items follows the survey of its section, and taking the item at an offset
follows the survey that looks the offset up. The bound of each of them is the number of the section
behind the last one that it may change.
-/

namespace DexGraph

theorem ItemKey.ofItem_of_ne {s : Section} (hs : s ≠ .codeItem) (data : Bytes) (o : UInt32) :
    ofItem data s o = ofOffset o := by
  cases s <;> first | rfl | exact absurd rfl hs

namespace Build

open Decoder Reading

variable {source : Source} {s : Section} {o : UInt32}

/-- Taking the item at an offset follows the survey that looks the offset up. -/
theorem itemAt_follows (hs : s.rowSize? = none) (hcode : s ≠ .codeItem)
    (hmembers : s ≠ .classData) (hsize : source.data.size < 2 ^ 32)
    (hzero : o = 0 → s = .stringData) {read : Reading s.Content}
    (hread : read.Follows source s.index s.survey) :
    (itemAt s o read).Follows source (s.index + 1) (Survey.item s o) := by
  unfold itemAt
  rw [← ItemKey.ofItem_of_ne hcode source.data]
  exact itemOf_follows hs hmembers (Nat.lt_succ_self _) hsize hzero hread fun _ _ _ _ => Iff.rfl

/-- An optional item: the offset zero is met and stands for none. -/
theorem item?_follows {bound : Nat} (hstring : s ≠ .stringData) {b : Build (Option (Ref s))}
    (hzero : o = 0 → b = pure none)
    (hitem : o ≠ 0 → b.Follows source bound (do return some (← Survey.item s o))) :
    b.Follows source bound (Survey.item? s o) := by
  by_cases ho : o = 0
  · rw [hzero ho]
    intro p a ha
    rw [establishes_run_lift, establishes_pure]
    refine ⟨[⟨s, o⟩], .refl ha ?_, fun v _ => Survey.reads_item?_iff.mpr ?_, fun _ hc => hc.on⟩
    · simp only [List.mem_singleton, forall_eq, Pointer.Answered]
      exact .inr ⟨ho, hstring⟩
    · simp [ho]
  · have hreads {v : View} {data : Bytes} {p q : Nat} {r : Option (Ref s)} {met : List Pointer} :
        (do return some (← Survey.item s o) : Survey (Option (Ref s))).Reads v data p r met q ↔
          (Survey.item? s o).Reads v data p r met q := by
      rw [Survey.reads_item?_iff, if_neg ho]
      constructor
      · intro h
        obtain ⟨r', first, q', rest, hr, hpure, rfl⟩ := Survey.reads_bind_iff.mp h
        obtain ⟨hfind, rfl, rfl⟩ := Survey.reads_item_iff.mp hr
        obtain ⟨rfl, rfl, rfl⟩ := Survey.reads_pure_iff.mp hpure
        exact ⟨hfind.symm, fun _ => rfl, rfl, rfl⟩
      · rintro ⟨hr, hsome, rfl, rfl⟩
        obtain ⟨r', rfl⟩ := Option.isSome_iff_exists.mp (hsome ho)
        exact Survey.Reads.bind (Survey.reads_item_iff.mpr ⟨hr.symm, rfl, rfl⟩)
          (Survey.reads_pure_iff.mpr ⟨rfl, rfl, rfl⟩)
    intro p a ha
    have hadmits {chart : Chart} (hc : chart.Admits source.data bound (Survey.item? s o) p a) :=
      hc.imp (Nat.le_refl _) fun _ r met q _ _ h => ⟨r, met, q, hreads.mpr h⟩
    refine ((hitem ho p a ha).mono_error fun e he =>
      ⟨he.1, fun chart hc => he.2 chart (hadmits hc)⟩).mono fun out a' hout => ?_
    obtain ⟨met, hstep, hmet, hon⟩ := hout
    exact ⟨met, hstep, fun v hv => hreads.mp (hmet v hv), fun chart hc => hon chart (hadmits hc)⟩

theorem itemAt?_follows (hs : s.rowSize? = none) (hstring : s ≠ .stringData)
    (hcode : s ≠ .codeItem) (hmembers : s ≠ .classData) (hsize : source.data.size < 2 ^ 32)
    {read : Reading s.Content} (hread : read.Follows source s.index s.survey) :
    (itemAt? s o read).Follows source (s.index + 1) (Survey.item? s o) := by
  unfold itemAt?
  refine item?_follows hstring (fun ho => if_pos (by simp [ho])) fun ho => ?_
  rw [if_neg (by simpa using ho)]
  exact (itemAt_follows hs hcode hmembers hsize (fun h => absurd h ho) hread).bind fun _ =>
    Build.follows_pure

variable (hsize : source.data.size < 2 ^ 32)
include hsize

/-! ## Items without items -/

theorem stringData_follows : (stringData o).Follows source 1 (Survey.item .stringData o) :=
  itemAt_follows rfl (by decide) (by decide) hsize (fun _ => rfl)
    (follows_decode StringData.steady_decode)

theorem typeList?_follows : (typeList? o).Follows source 4 (Survey.item? .typeList o) :=
  itemAt?_follows rfl (by decide) (by decide) (by decide) hsize
    (follows_decodeWith TypeList.steady_decode)

theorem encodedArray?_follows :
    (encodedArray? o).Follows source 11 (Survey.item? .encodedArray o) :=
  itemAt?_follows rfl (by decide) (by decide) (by decide) hsize
    ((follows_decodeWith Value.steady_decodeArray).bind fun _ => Reading.follows_pure)

theorem debugInfo?_follows : (debugInfo? o).Follows source 16 (Survey.item? .debugInfo o) :=
  itemAt?_follows rfl (by decide) (by decide) (by decide) hsize
    (follows_decode DebugInfo.steady_decode)

/-! ## Annotations -/

theorem annotationItem_follows (ho : o ≠ 0) :
    (annotationItem o).Follows source 12 (Survey.item .annotationItem o) := by
  refine itemAt_follows rfl (by decide) (by decide) hsize (fun h => absurd h ho)
    ((follows_decode steady_byte).bind fun code => ?_)
  cases Visibility.ofCode? code with
  | none => exact Reading.follows_refuse
  | some visibility =>
    exact (follows_decodeWith Annotation.steady_decode).bind fun _ => Reading.follows_pure

theorem annotationSet?_follows :
    (annotationSet? o).Follows source 13 (Survey.item? .annotationSet o) := by
  refine itemAt?_follows rfl (by decide) (by decide) (by decide) hsize
    ((follows_decode steady_word).bind fun count => (Reading.Follows.gather ?_).bind fun _ =>
      Reading.follows_pure)
  refine (follows_decode steady_word).bind fun itemOffset => .ite (fun _ => Reading.follows_pure)
    fun ho => Reading.Follows.bind ?_ fun _ => Reading.follows_pure
  exact annotationItem_follows hsize (by simpa using ho)

theorem annotationSetRefList?_follows :
    (annotationSetRefList? o).Follows source 14 (Survey.item? .annotationSetRefList o) := by
  refine itemAt?_follows rfl (by decide) (by decide) (by decide) hsize
    ((follows_decode steady_word).bind fun count => (Reading.Follows.gather ?_).bind fun _ =>
      Reading.follows_pure)
  exact (follows_decode steady_word).bind fun setOffset => annotationSet?_follows hsize

omit hsize in
theorem memberAnnotations_follows {member notes : Section} {bound : Nat}
    {notesAt? : UInt32 → Build (Option (Ref notes))}
    (h : ∀ o, (notesAt? o).Follows source bound (Survey.item? notes o)) :
    (memberAnnotations member notes notesAt?).Follows source bound
      (MemberAnnotations.survey member notes) :=
  (follows_decode steady_word).bind fun _ => (follows_decode steady_word).bind fun offset =>
    Reading.Follows.bind resolve_follows fun _ => Reading.Follows.bind (h offset) fun _ =>
      Reading.follows_pure

theorem annotationsDirectory?_follows :
    (annotationsDirectory? o).Follows source 15 (Survey.item? .annotationsDirectory o) := by
  have hset (o : UInt32) : (annotationSet? o).Follows source 14 (Survey.item? .annotationSet o) :=
    (annotationSet?_follows hsize).mono (by decide)
  exact itemAt?_follows rfl (by decide) (by decide) (by decide) hsize <|
    (follows_decode steady_word).bind fun classOffset => (follows_decode steady_word).bind fun _ =>
    (follows_decode steady_word).bind fun _ => (follows_decode steady_word).bind fun _ =>
    Reading.Follows.bind (hset classOffset) fun _ =>
    (memberAnnotations_follows hset).gather.bind fun _ =>
    (memberAnnotations_follows hset).gather.bind fun _ =>
    (memberAnnotations_follows fun _ => annotationSetRefList?_follows hsize).gather.bind fun _ =>
      Reading.follows_pure

/-! ## Code -/

/-- The header of a body is read before the body is looked up, and the survey of the body reads it
again. -/
theorem codeItem?_follows : (codeItem? o).Follows source 17 (Survey.item? .codeItem o) := by
  unfold codeItem?
  refine item?_follows (by decide) (fun ho => if_pos (by simp [ho])) fun ho => ?_
  rw [if_neg (by simpa using ho)]
  intro p a ha
  rw [establishes_run_lift, establishes_bind]
  refine (establishes_run_decodeWith (d := fun _ => CodeHeader.decode)).mpr
    ⟨fun header start hheader => ?_, fun e he => ⟨CodeHeader.steady_decode.error he, ?_⟩⟩
  · have hitem : (itemOf .codeItem (.ofItem source.data .codeItem o) start do
        let debugInfo ← debugInfo? header.debugInfoOffset
        decodeWith fun g => CodeItem.decodeAfter g header debugInfo).Follows source 17
          (Survey.item .codeItem o) := by
      refine itemOf_follows rfl (by decide) (by decide) hsize (fun h => absurd h ho)
        (Reading.Follows.bind (debugInfo?_follows hsize) fun debugInfo =>
          follows_decodeWith (CodeItem.steady_decodeAfter header debugInfo)) fun v x met q => ?_
      -- the survey of the body starts with the header that has been read
      exact ⟨fun h => (Survey.reads_decode_iff.mpr ⟨hheader, rfl⟩).bind h,
        fun h => (Survey.reads_decode_bind_iff (α := CodeItem) hheader).mp h⟩
    rw [ItemKey.ofItem_codeItem hheader] at hitem
    exact establishes_run_lift.mp
      ((Build.Follows.bind hitem fun r => Build.follows_pure) p a ha)
  · -- a body that is admitted has a header
    intro chart hc
    obtain ⟨v, hv, hw, -, -⟩ := hc.on.exists_covers
    obtain ⟨x, met, q, hreads⟩ := (hc.first.survey (by decide)).reads v hv hw
    obtain ⟨header, first, start, rest, hheader, -⟩ := Survey.reads_bind_iff.mp hreads
    cases (Survey.reads_decode_iff.mp hheader).1.symm.trans he

/-! ## Members -/

theorem methodsFrom_follows (previous : UInt32) (methods : Array MethodItem) (count : Nat) :
    (methodsFrom previous methods count).Follows source 17
      (MethodItem.surveyFrom previous methods count) := by
  induction count generalizing previous methods with
  | zero => exact Reading.follows_pure
  | succ count ih =>
    exact (follows_decode steady_unsignedLeb).bind fun _ =>
      Reading.Follows.bind (ofExcept_follows fun _ => plain_of_nextIndex) fun _ =>
      (follows_decode steady_unsignedLeb).bind fun _ =>
      (follows_decode steady_unsignedLeb).bind fun _ =>
      Reading.Follows.bind resolve_follows fun _ =>
      Reading.Follows.bind (codeItem?_follows hsize) fun _ => ih _ _

theorem classMembers_follows : classMembers.Follows source 17 ClassData.survey :=
  (follows_decode steady_unsignedLeb).bind fun staticCount =>
    (follows_decode steady_unsignedLeb).bind fun instanceCount =>
    (follows_decode steady_unsignedLeb).bind fun _ =>
    (follows_decode steady_unsignedLeb).bind fun _ =>
    (follows_decodeWith (FieldItem.steady_decodeList staticCount)).bind fun _ =>
    (follows_decodeWith (FieldItem.steady_decodeList instanceCount)).bind fun _ =>
    (methodsFrom_follows hsize _ _ _).bind fun _ =>
    (methodsFrom_follows hsize _ _ _).bind fun _ => Reading.follows_pure

end Build

namespace ClassData

@[simp] theorem bare_attach (c : ClassData) (r : Ref .classData) : (c.attach r).bare = c.bare := by
  simp [attach, bare, Function.comp_def]

@[simp] theorem bare_belongTo (c : ClassData) (d : Ref .classDef) :
    (c.belongTo d).bare = c.bare :=
  rfl

/-- Members without notes are all that is left without the notes. -/
theorem bare_eq_self {c : ClassData} (hdef : c.classDef = none)
    (hfields : ∀ f ∈ c.allFields, f.classData = none)
    (hmethods : ∀ m ∈ c.allMethods, m.classData = none) : c.bare = c := by
  have hself {α : Type} {f : α → α} {xs : Array α} (h : ∀ x ∈ xs, f x = x) : xs.map f = xs :=
    (Array.map_congr_left h).trans (Array.map_id xs)
  have hfield (f : FieldItem) (hf : f ∈ c.allFields) : { f with classData := none } = f := by
    rw [← hfields f hf]
  have hmethod (m : MethodItem) (hm : m ∈ c.allMethods) : { m with classData := none } = m := by
    rw [← hmethods m hm]
  unfold bare
  rw [hself fun f hf => hfield f (Array.mem_append_left _ hf),
    hself fun f hf => hfield f (Array.mem_append_right _ hf),
    hself fun m hm => hmethod m (Array.mem_append_left _ hm),
    hself fun m hm => hmethod m (Array.mem_append_right _ hm), ← hdef]

end ClassData

namespace Graph.Beside

theorem modify (g : Graph) {s : Section} (r : Ref s) (f : s.Content → s.Content) :
    g.Beside (g.modify r f) :=
  ((Graph.Beside.refl g).setEntities _ _).setEntities _ _

theorem registerMethods (r : Ref .classData) (g : Graph) :
    g.Beside (Build.registerMethods r g) := by
  cases hc : g.get? r with
  | none =>
    unfold Build.registerMethods
    simp only [hc]
    exact .refl g
  | some c =>
    rw [registerMethods_eq hc]
    exact ⟨rfl, rfl, rfl, rfl⟩

end Graph.Beside

/-- Attaching and registering members changes only what the image does not show. -/
theorem Assembly.Valid.attach {source : Source} {a : Assembly} (h : a.Valid source)
    (r : Ref .classData) :
    Valid source { a with
        graph := Build.registerMethods r (a.graph.modify r fun c => c.attach r) } ∧
      (a.view source.data).Within (view { a with
        graph := Build.registerMethods r (a.graph.modify r fun c => c.attach r) } source.data) := by
  refine h.of_same rfl (fun s => ?_) (fun s => ?_) (fun s r' y hy => ?_) fun _ _ => rfl
  · rw [Graph.entities_registerMethods]
    exact Graph.coherent_modify h.coherent r _ s
  · unfold Graph.count
    rw [Graph.entities_registerMethods]
    exact Graph.count_modify a.graph r _ s
  · rw [Graph.get?_registerMethods] at hy
    by_cases hs : s = .classData
    · subst hs
      rw [Graph.get?_modify_self] at hy
      split at hy
      · obtain ⟨c, hc, rfl⟩ := Option.map_eq_some_iff.mp hy
        exact ⟨c, hc, (c.bare_attach r).symm⟩
      · exact ⟨y, hy, rfl⟩
    · rw [Graph.get?_modify_of_ne _ _ _ hs] at hy
      exact ⟨y, hy, rfl⟩

namespace Build

variable {source : Source} {o : UInt32}

/-- The members of a class are told where they belong and registered when they are met for the
first time. -/
theorem classData?_follows (hsize : source.data.size < 2 ^ 32) :
    (classData? o).Follows source 18 (Survey.item? .classData o) := by
  unfold classData?
  refine item?_follows (by decide) (fun ho => if_pos (by simp [ho])) fun ho => ?_
  rw [if_neg (by simpa using ho)]
  intro p a ha
  rw [establishes_run_lift, establishes_bind, establishes_known?]
  cases hfound : (a.known.get .classData).get? (.ofOffset o) with
  | some r =>
    exact ⟨_, .found ha hfound, fun v hv =>
      (Survey.reads_item_iff.mpr ⟨hv.find hfound, rfl, rfl⟩).bind
        (Survey.reads_pure_iff.mpr ⟨rfl, rfl, rfl⟩), fun _ hc => hc.on⟩
  | none =>
    have hitem {chart : Chart} (hc : chart.Admits source.data 18
        (do return some (← Survey.item .classData o)) p a) :
        chart.Admits source.data 18 (Survey.item .classData o) p a := hc.first
    have hinside {chart : Chart} (hc : chart.Admits source.data 18
        (do return some (← Survey.item .classData o)) p a) :
        chart.Admits source.data 17 ClassData.survey o.toNat a := (hitem hc).survey (by decide)
    rw [establishes_bind]
    refine ((classMembers_follows hsize o.toNat a ha).mono_error fun e he =>
      ⟨he.1, fun chart hc => he.2 chart (hinside hc)⟩).mono fun out a₁ hout => ?_
    obtain ⟨met, hstep, hreads, hon⟩ := hout
    have hnew : (a₁.view source.data).find? .classData o = none := by
      simpa only [Assembly.view, ItemKey.ofItem, hstep.known .classData (by decide)] using hfound
    obtain ⟨-, hdef, hfields, hmethods⟩ :=
      hstep.valid.closed.ensures_classData _ _ _ _ (hreads _ (.refl _))
    have hbare : Section.classData.bare out.1 = out.1 :=
      ClassData.bare_eq_self hdef hfields hmethods
    have hstop (e : Error) (he : e.Plain) (hle : 2 ^ 32 ≤ out.2) : e.Honest a.graph ∧
        ∀ chart : Chart, ¬ chart.Admits source.data 18
          (do return some (← Survey.item .classData o)) p a :=
      ⟨he.honest _, fun chart hc => Nat.not_lt.mpr hle <|
        (hitem hc).stop_lt (by decide) (hon chart (hinside hc)) hreads⟩
    rw [establishes_bind]
    refine establishes_enter (s := .classData) hstop hnew fun r a' hgrown hfind hkeys hlocates => ?_
    rw [establishes_bind, establishes_changeGraph, establishes_pure]
    obtain ⟨hvalid, hwithin⟩ :=
      hstep.valid.enter rfl hnew (fun h => absurd h ho) hsize hgrown hfind hkeys
        (by rwa [hbare]) hstep.answered hlocates
    obtain ⟨hvalid', hwithin'⟩ := hvalid.attach r
    have hothers (t : Section) (ht : t ≠ .classData) :
        (registerMethods r (a'.graph.modify r fun c => c.attach r)).entities t =
          a₁.graph.entities t := by
      rw [Graph.entities_registerMethods, Graph.entities_modify_of_ne _ _ _ ht,
        hgrown.entities_of_ne t ht]
    refine ⟨_, hstep.enter rfl (by decide) hfound hvalid' (hwithin.trans hwithin') hothers
      hgrown.known_of_ne (fun hl => ?_)
      (hgrown.beside.trans ⟨(Graph.Beside.modify _ r _).trans (.registerMethods r _), .refl _⟩)
      hfind hreads,
      fun v hv => (Survey.reads_item_iff.mpr ⟨hv.find ((hfind o).trans (if_pos rfl)), rfl, rfl⟩).bind
        (Survey.reads_pure_iff.mpr ⟨rfl, rfl, rfl⟩), fun chart hc =>
        (hon chart (hinside hc)).enter rfl (hitem hc).holds hothers hgrown.known_of_ne hfind⟩
    exact hl.registerMethods (hgrown.get?_self (hstep.valid.coherent _))
      (hgrown.get?_ref (hstep.valid.coherent _)) (hgrown.entities_of_ne _ (by decide))
      hgrown.methodItems hdef

end Build

end DexGraph
