import DexGraph.Proofs.Assembly.Survey
import DexGraph.Proofs.Codec.Steady

/-!
# What surveys ensure

Whatever a survey reads in a view whose entities exist names only entities that exist
(`Section.survey_ensures_allRefs`), and a body names only handlers of its own
(`Section.survey_ensures_tries`). Members are read without notes about where they belong
(`ClassData.survey_ensures_bare`), and every survey looks at the byte at which it starts
(`Section.lt_size_of_survey`).
-/

namespace DexGraph

/-! ## Decoders -/

namespace Decoder

variable {α β : Type} {P : α → Prop}

/-- Whatever the decoder reads satisfies `P`. -/
def Ensures (d : Decoder α) (P : α → Prop) : Prop :=
  ∀ data p a q, d.Reads data p a q → P a

theorem ensures_pure {a : α} (h : P a) : (pure a : Decoder α).Ensures P := by
  intro data p b q hb
  rwa [(reads_pure_iff.mp hb).1]

theorem ensures_fail {e : Error} : (fail e : Decoder α).Ensures P :=
  fun _ _ _ _ h => absurd h not_reads_fail

theorem Ensures.bind {d : Decoder β} {f : β → Decoder α} {R : β → Prop} (hd : d.Ensures R)
    (hf : ∀ b, R b → (f b).Ensures P) : (d >>= f).Ensures P := by
  intro data p a q h
  obtain ⟨b, r, hb, ha⟩ := reads_bind_iff.mp h
  exact hf b (hd _ _ _ _ hb) _ _ _ _ ha

/-- Nothing is needed of what is read first. -/
theorem ensures_bind {d : Decoder β} {f : β → Decoder α} (hf : ∀ b, (f b).Ensures P) :
    (d >>= f).Ensures P :=
  Ensures.bind (R := fun _ => True) (fun _ _ _ _ _ => trivial) fun b _ => hf b

theorem Ensures.mono {d : Decoder α} {R : α → Prop} (hd : d.Ensures R) (h : ∀ a, R a → P a) :
    d.Ensures P :=
  fun _ _ _ _ ha => h _ (hd _ _ _ _ ha)

theorem Ensures.ite {c : Prop} [Decidable c] {d d' : Decoder α} (h : d.Ensures P)
    (h' : d'.Ensures P) : (if c then d else d').Ensures P := by
  split
  · exact h
  · exact h'

theorem Ensures.gather {d : Decoder α} (hd : d.Ensures P) {n : Nat} :
    (DexGraph.gather n d).Ensures fun xs => ∀ x ∈ xs, P x := by
  intro data p xs q h x hx
  replace h := (reads_gather_iff.mp h).2
  rw [← Array.mem_toList_iff] at hx
  generalize xs.toList = rest at h hx
  induction rest generalizing p with
  | nil => cases hx
  | cons y rest ih =>
    obtain ⟨r, hy, hrest⟩ := h
    rcases List.mem_cons.mp hx with rfl | hx
    · exact hd _ _ _ _ hy
    · exact ih r hrest hx

theorem ensures_resolve {g : Graph} {s : Section} {index : UInt32} :
    (Decoder.ofExcept (g.resolve s index)).Ensures (g.Has s) := by
  intro data p r q h
  obtain ⟨rfl, hr⟩ := Graph.resolve_eq_ok_iff.mp (reads_ofExcept_iff.mp h).1
  exact hr

theorem Ensures.elsewhere {d : Decoder α} (hd : d.Ensures P) {target : Nat} :
    (Decoder.elsewhere target d).Ensures P := by
  intro data p a q h
  obtain ⟨⟨r, ha⟩, -⟩ := reads_elsewhere_iff.mp h
  exact hd _ _ _ _ ha

/-- The rule for loops: every turn keeps `I`. -/
theorem ensures_foldlM {γ : Type} {f : β → γ → Decoder β} {I : β → Prop} {xs : Array γ}
    (hstep : ∀ b x, I b → (f b x).Ensures I) {b : β} (h : I b) : (xs.foldlM f b).Ensures I := by
  rw [← Array.foldlM_toList]
  induction xs.toList generalizing b with
  | nil => exact ensures_pure h
  | cons x rest ih => exact (hstep b x h).bind fun _ hb => ih hb

end Decoder

section Contents

open Decoder

/-! ## Values -/

namespace Value

theorem allRefsEach_iff {p : (t : Section) → Ref t → Prop} {values : List Value} :
    AllRefsEach p values ↔ ∀ v ∈ values, v.AllRefs p := by
  induction values with
  | nil => simp [AllRefsEach]
  | cons v rest ih => simp [AllRefsEach, ih]

theorem allRefsElements_iff {p : (t : Section) → Ref t → Prop}
    {elements : List (Ref .stringId × Value)} :
    AllRefsElements p elements ↔ ∀ x ∈ elements, p _ x.1 ∧ x.2.AllRefs p := by
  induction elements with
  | nil => simp [AllRefsElements]
  | cons x rest ih =>
    obtain ⟨name, v⟩ := x
    simp [AllRefsElements, ih, and_assoc]

variable {g : Graph} {value : Decoder Value}

theorem decodeIndex_ensures {s : Section} : (decodeIndex g s).Ensures (g.Has s) :=
  ensures_bind fun _ => ensures_resolve

theorem decodeRef_ensures {s : Section} {width : Nat} : (decodeRef g s width).Ensures (g.Has s) :=
  ensures_bind fun _ => ensures_resolve

theorem decodeArrayWith_ensures (h : value.Ensures (AllRefs g.Has)) :
    (decodeArrayWith value).Ensures (AllRefsEach g.Has) :=
  ensures_bind fun _ => h.gather.bind fun xs hxs => ensures_pure <| by
    rw [allRefsEach_iff]
    exact fun v hv => hxs v (Array.mem_toList_iff.mp hv)

theorem decodeAnnotationWith_ensures (h : value.Ensures (AllRefs g.Has)) :
    (decodeAnnotationWith g value).Ensures fun a =>
      g.Has _ a.type ∧ AllRefsElements g.Has a.elements := by
  refine decodeIndex_ensures.bind fun owner howner => ensures_bind fun _ => ?_
  have helement : (do
      let name ← decodeIndex g .stringId
      return (name, ← value) : Decoder (Ref .stringId × Value)).Ensures
        fun x => g.Has _ x.1 ∧ x.2.AllRefs g.Has :=
    decodeIndex_ensures.bind fun _ hname => h.bind fun _ hv => ensures_pure ⟨hname, hv⟩
  refine helement.gather.bind fun xs hxs => ensures_pure ⟨howner, ?_⟩
  rw [allRefsElements_iff]
  exact fun x hx => hxs x (Array.mem_toList_iff.mp hx)

theorem decodePayload_ensures (h : value.Ensures (AllRefs g.Has)) (argument : UInt8)
    (tag : ValueTag) : (decodePayload g value argument tag).Ensures (AllRefs g.Has) := by
  cases tag with
  | null | boolean => exact ensures_pure (by simp only [AllRefs])
  | byte | short | int | long | char | float | double =>
    exact ensures_bind fun _ => ensures_pure (by simp only [AllRefs])
  | array =>
    exact (decodeArrayWith_ensures h).bind fun _ hvs => ensures_pure (by simpa only [AllRefs])
  | annotated =>
    exact (decodeAnnotationWith_ensures h).bind fun _ ha => ensures_pure (by simpa only [AllRefs])
  | methodType | methodHandle | string | type | field | method | enum =>
    exact decodeRef_ensures.bind fun _ hr => ensures_pure (by simpa only [AllRefs])

theorem decodeWithin_ensures (depth : Nat) : (decodeWithin g depth).Ensures (AllRefs g.Has) := by
  induction depth with
  | zero => exact ensures_fail
  | succ depth ih =>
    refine ensures_bind fun start => ensures_bind fun first => ?_
    dsimp only
    cases ValueTag.ofCode? (first &&& 0x1F) with
    | none => exact ensures_fail
    | some tag =>
      exact .ite (ensures_bind fun _ => decodePayload_ensures ih _ tag)
        (decodePayload_ensures ih _ tag)

theorem decodeArray_ensures : (decodeArray g).Ensures (AllRefsEach g.Has) :=
  ensures_bind fun _ => decodeArrayWith_ensures (decodeWithin_ensures _)

end Value

theorem Annotation.decode_ensures {g : Graph} : ( Annotation.decode g).Ensures fun a =>
    g.Has _ a.type ∧ Value.AllRefsElements g.Has a.elements :=
  ensures_bind fun _ => Value.decodeAnnotationWith_ensures (Value.decodeWithin_ensures _)

/-! ## Type lists, bodies and fields -/

theorem TypeList.decode_ensures {g : Graph} :
    (TypeList.decode g).Ensures fun x => ∀ r ∈ x.types, g.Has _ r :=
  ensures_bind fun _ => (Ensures.gather (ensures_bind fun _ => ensures_resolve)).bind
    fun _ hxs => ensures_pure hxs

theorem CatchHandler.decode_ensures {g : Graph} {listOffset : UInt16} :
    (CatchHandler.decode g listOffset).Ensures fun h =>
      ∀ c ∈ h.clauses, ∀ r ∈ c.type, g.Has _ r := by
  have hclause : (decodeClause g).Ensures fun c => ∀ r ∈ c.type, g.Has _ r :=
    ensures_bind fun _ => ensures_bind fun _ => ensures_resolve.bind fun t ht =>
      ensures_pure fun r hr => Option.mem_some.mp hr ▸ ht
  refine ensures_bind fun _ => hclause.gather.bind fun clauses hclauses =>
    .ite (ensures_bind fun address => ensures_pure ?_) (ensures_pure hclauses)
  intro c hc
  rcases Array.mem_push.mp hc with hc | rfl
  · exact hclauses c hc
  · simp

namespace Catches

/-- Every try range names a handler, and every type that is caught exists. -/
structure Closed (g : Graph) (c : Catches) : Prop where
  tries : ∀ t ∈ c.tries, t.handler < c.handlers.size
  handlers : ∀ h ∈ c.handlers, ∀ clause ∈ h.clauses, ∀ r ∈ clause.type, g.Has _ r

variable {g : Graph} {c : Catches}

theorem closed_empty : Closed g empty where
  tries := by simp [empty]
  handlers := by simp [empty]

theorem Closed.push {h : CatchHandler} (hc : c.Closed g)
    (hh : ∀ clause ∈ h.clauses, ∀ r ∈ clause.type, g.Has _ r) {tries : Array TryRange}
    (htries : ∀ t ∈ tries, t ∈ c.tries ∨ t.handler = c.handlers.size) :
    Closed g ⟨tries, c.handlers.push h⟩ where
  tries t ht := by
    rw [Array.size_push]
    rcases htries t ht with ht | ht
    · exact Nat.lt_succ_of_lt (hc.tries t ht)
    · exact ht ▸ Nat.lt_succ_self _
  handlers h' hh' := by
    rcases Array.mem_push.mp hh' with hh' | rfl
    · exact hc.handlers h' hh'
    · exact hh

theorem addTry_ensures {listStart : Nat} {t : StoredTry} (hc : c.Closed g) :
    (addTry g listStart c t).Ensures (Closed g) := by
  unfold addTry
  cases hi : CatchHandler.positionOf? c.handlers t.handlerOffset with
  | some i =>
    refine ensures_pure ⟨fun t' ht' => ?_, hc.handlers⟩
    rcases Array.mem_push.mp ht' with ht' | rfl
    · exact hc.tries t' ht'
    · exact (Array.findIdx?_eq_some_iff_getElem.mp hi).1
  | none =>
    refine CatchHandler.decode_ensures.elsewhere.bind fun h hh => ensures_pure (hc.push hh ?_)
    intro t' ht'
    rcases Array.mem_push.mp ht' with ht' | rfl
    · exact .inl ht'
    · exact .inr rfl

theorem addListed_ensures {listStart : Nat} (count : Nat) (hc : c.Closed g) :
    (addListed g listStart count c).Ensures (Closed g) := by
  induction count generalizing c with
  | zero => exact ensures_pure hc
  | succ count ih =>
    refine ensures_bind fun _ => ensures_bind fun _ => .ite (ensures_bind fun _ => ih hc) ?_
    exact CatchHandler.decode_ensures.bind fun h hh => ih (hc.push hh fun t ht => .inl ht)

theorem decode_ensures {tryCount : Nat} : (decode g tryCount).Ensures (Closed g) :=
  ensures_bind fun _ => ensures_bind fun _ =>
    (ensures_foldlM (fun _ _ hc => addTry_ensures hc) closed_empty).bind fun _ hc =>
      ensures_bind fun _ => addListed_ensures _ hc

end Catches

theorem CodeItem.decodeAfter_ensures {g : Graph} {h : CodeHeader}
    {debugInfo : Option (Ref .debugInfo)} :
    (decodeAfter g h debugInfo).Ensures fun x =>
      x.debugInfo = debugInfo ∧ Catches.Closed g ⟨x.tries, x.handlers⟩ :=
  ensures_bind fun _ => .ite (ensures_pure ⟨rfl, Catches.closed_empty⟩)
    (.ite (ensures_bind fun _ => Catches.decode_ensures.bind fun _ hc => ensures_pure ⟨rfl, hc⟩)
      (Catches.decode_ensures.bind fun _ hc => ensures_pure ⟨rfl, hc⟩))

/-- The fields that are read exist, and no note says where they belong. -/
theorem FieldItem.decodeFrom_ensures {g : Graph} (count : Nat) {previous : UInt32}
    {fields : Array FieldItem} (h : ∀ f ∈ fields, g.Has _ f.field ∧ f.classData = none) :
    (decodeFrom g previous fields count).Ensures fun fs =>
      ∀ f ∈ fs, g.Has _ f.field ∧ f.classData = none := by
  induction count generalizing previous fields with
  | zero => exact ensures_pure h
  | succ count ih =>
    refine ensures_bind fun _ => ensures_bind fun _ => ensures_bind fun _ =>
      ensures_resolve.bind fun field hfield => ih fun f hf => ?_
    rcases Array.mem_push.mp hf with hf | rfl
    · exact h f hf
    · exact ⟨hfield, rfl⟩

end Contents

/-! ## Surveys -/

namespace Survey

variable {α β : Type} {v : View} {P : α → Prop}

/-- Whatever the survey reads in the view satisfies `P`. -/
def Ensures (m : Survey α) (v : View) (P : α → Prop) : Prop :=
  (m v).Ensures fun out => P out.1

theorem ensures_pure {a : α} (h : P a) : (pure a : Survey α).Ensures v P :=
  Decoder.ensures_pure h

theorem Ensures.bind {m : Survey β} {f : β → Survey α} {R : β → Prop} (hm : m.Ensures v R)
    (hf : ∀ b, R b → (f b).Ensures v P) : (m >>= f).Ensures v P :=
  Decoder.Ensures.bind hm fun first hfirst => Decoder.Ensures.bind (hf first.1 hfirst)
    fun _ hsecond => Decoder.ensures_pure hsecond

/-- Nothing is needed of what is read first. -/
theorem ensures_bind {m : Survey β} {f : β → Survey α} (hf : ∀ b, (f b).Ensures v P) :
    (m >>= f).Ensures v P :=
  Ensures.bind (R := fun _ => True) (fun _ _ _ _ _ => trivial) fun b _ => hf b

theorem Ensures.mono {m : Survey α} {R : α → Prop} (hm : m.Ensures v R) (h : ∀ a, R a → P a) :
    m.Ensures v P :=
  Decoder.Ensures.mono hm fun _ => h _

theorem Ensures.ite {c : Prop} [Decidable c] {m m' : Survey α} (h : m.Ensures v P)
    (h' : m'.Ensures v P) : (if c then m else m').Ensures v P := by
  split
  · exact h
  · exact h'

theorem ensures_decodeWith {d : Graph → Decoder α} (hd : (d v.graph).Ensures P) :
    (decodeWith d).Ensures v P := by
  intro data p out q h
  exact hd _ _ _ _ (reads_decodeWith_iff.mp h).1

theorem ensures_fail {e : Error} : (decode (Decoder.fail e) : Survey α).Ensures v P :=
  ensures_decodeWith (d := fun _ => Decoder.fail e) Decoder.ensures_fail

theorem ensures_resolve {s : Section} {index : UInt32} :
    (resolve s index).Ensures v (v.graph.Has s) :=
  ensures_decodeWith Decoder.ensures_resolve

theorem ensures_resolveOrNone {s : Section} {index : UInt32} :
    (resolveOrNone s index).Ensures v fun r => ∀ x ∈ r, v.graph.Has s x := by
  refine ensures_decodeWith fun data p r q h => ?_
  exact (Graph.resolveOrNone_eq_ok_iff.mp (Decoder.reads_ofExcept_iff.mp h).1).2

theorem gatherFrom_ensures {m : Survey α} (hm : m.Ensures v P) (n : Nat) {done : Array α}
    (h : ∀ x ∈ done, P x) : (gatherFrom done n m).Ensures v fun xs => ∀ x ∈ xs, P x := by
  induction n generalizing done with
  | zero => exact ensures_pure h
  | succ n ih =>
    refine hm.bind fun a ha => ih fun x hx => ?_
    rcases Array.mem_push.mp hx with hx | rfl
    · exact h x hx
    · exact ha

theorem Ensures.gather {m : Survey α} (hm : m.Ensures v P) {n : Nat} :
    (DexGraph.gather n m).Ensures v fun xs => ∀ x ∈ xs, P x :=
  gatherFrom_ensures hm n (by simp)

end Survey

open Survey

/-- Every offset that stands for a data item stands for one that exists. -/
def View.Closed (v : View) : Prop :=
  ∀ s o r, s.rowSize? = none → v.find? s o = some r → v.graph.Has s r

namespace View.Closed

variable {v : View} (hv : v.Closed)
include hv

theorem ensures_item {s : Section} (hs : s.rowSize? = none) {offset : UInt32} :
    (item s offset).Ensures v (v.graph.Has s) := by
  intro data p out q h
  exact hv s offset _ hs (reads_item_iff.mp h).1

theorem ensures_item? {s : Section} (hs : s.rowSize? = none) {offset : UInt32} :
    (item? s offset).Ensures v fun r => ∀ x ∈ r, v.graph.Has s x := by
  intro data p out q h x hx
  obtain ⟨hr, -⟩ := reads_item?_iff.mp h
  rw [hr] at hx
  split at hx
  · cases hx
  · exact hv s offset x hs hx

theorem ensures_memberAnnotations {member notes : Section} (hs : notes.rowSize? = none) :
    (MemberAnnotations.survey member notes).Ensures v fun e =>
      v.graph.Has _ e.owner ∧ ∀ r ∈ e.annotations, v.graph.Has _ r :=
  ensures_bind fun _ => ensures_bind fun _ => ensures_resolve.bind fun _ howner =>
    (hv.ensures_item? hs).bind fun _ hnotes => ensures_pure ⟨howner, hnotes⟩

theorem ensures_methods {count : Nat} {previous : UInt32} {methods : Array MethodItem}
    (h : ∀ m ∈ methods, (v.graph.Has _ m.method ∧ ∀ r ∈ m.code, v.graph.Has _ r) ∧
      m.classData = none) :
    (MethodItem.surveyFrom previous methods count).Ensures v fun ms =>
      ∀ m ∈ ms, (v.graph.Has _ m.method ∧ ∀ r ∈ m.code, v.graph.Has _ r) ∧ m.classData = none := by
  induction count generalizing previous methods with
  | zero => exact ensures_pure h
  | succ count ih =>
    refine ensures_bind fun _ => ensures_bind fun _ => ensures_bind fun _ => ensures_bind fun _ =>
      ensures_resolve.bind fun method hmethod => (hv.ensures_item? rfl).bind fun code hcode =>
        ih fun m hm => ?_
    rcases Array.mem_push.mp hm with hm | rfl
    · exact h m hm
    · exact ⟨⟨hmethod, hcode⟩, rfl⟩

/-- The members that are read name what exists, and have no notes. -/
theorem ensures_classData : ClassData.survey.Ensures v fun c =>
    Section.classData.AllRefs v.graph.Has c ∧ c.classDef = none ∧
      (∀ f ∈ c.allFields, f.classData = none) ∧ ∀ m ∈ c.allMethods, m.classData = none := by
  refine ensures_bind fun _ => ensures_bind fun _ => ensures_bind fun _ => ensures_bind fun _ =>
    (ensures_decodeWith (FieldItem.decodeFrom_ensures _ (by simp))).bind fun static hstatic =>
    (ensures_decodeWith (FieldItem.decodeFrom_ensures _ (by simp))).bind fun inst hinst =>
    (hv.ensures_methods (by simp)).bind fun direct hdirect =>
    (hv.ensures_methods (by simp)).bind fun virtual hvirtual => ensures_pure ?_
  have hfields (f : FieldItem) (hf : f ∈ static ++ inst) :
      v.graph.Has _ f.field ∧ f.classData = none :=
    (Array.mem_append.mp hf).elim (hstatic f) (hinst f)
  have hmethods (m : MethodItem) (hm : m ∈ direct ++ virtual) :
      (v.graph.Has _ m.method ∧ ∀ r ∈ m.code, v.graph.Has _ r) ∧ m.classData = none :=
    (Array.mem_append.mp hm).elim (hdirect m) (hvirtual m)
  exact ⟨⟨fun f hf => (hfields f hf).1, fun m hm => (hmethods m hm).1⟩, rfl,
    fun f hf => (hfields f hf).2, fun m hm => (hmethods m hm).2⟩

end View.Closed

namespace Section

variable {v : View}

/-- What is read in a view whose entities exist names only entities that exist. -/
theorem survey_ensures_allRefs (hv : v.Closed) (s : Section) :
    s.survey.Ensures v (s.AllRefs v.graph.Has) := by
  cases s with
  | stringData | debugInfo => exact fun _ _ _ _ _ => trivial
  | stringId => exact ensures_bind fun _ => (hv.ensures_item rfl).bind fun _ h => ensures_pure h
  | typeId => exact ensures_bind fun _ => ensures_resolve.bind fun _ h => ensures_pure h
  | typeList => exact ensures_decodeWith TypeList.decode_ensures
  | protoId =>
    exact ensures_bind fun _ => ensures_resolve.bind fun _ h₁ => ensures_resolve.bind fun _ h₂ =>
      (hv.ensures_item? rfl).bind fun _ h₃ => ensures_pure ⟨h₁, h₂, h₃⟩
  | fieldId | methodId =>
    exact ensures_bind fun _ => ensures_resolve.bind fun _ h₁ => ensures_resolve.bind fun _ h₂ =>
      ensures_resolve.bind fun _ h₃ => ensures_pure ⟨h₁, h₂, h₃⟩
  | classDef =>
    exact ensures_bind fun _ => ensures_resolve.bind fun _ h₁ =>
      ensures_resolveOrNone.bind fun _ h₂ => (hv.ensures_item? rfl).bind fun _ h₃ =>
      ensures_resolveOrNone.bind fun _ h₄ => (hv.ensures_item? rfl).bind fun _ h₅ =>
      (hv.ensures_item? rfl).bind fun _ h₆ => (hv.ensures_item? rfl).bind fun _ h₇ =>
        ensures_pure ⟨h₁, h₂, h₃, h₄, h₅, h₇, h₆⟩
  | callSiteId =>
    refine ensures_bind fun _ => (hv.ensures_item? rfl).bind fun array h => ?_
    cases array with
    | none => exact ensures_fail
    | some r => exact ensures_pure (h r rfl)
  | methodHandle =>
    refine ensures_bind fun row => ?_
    unfold MethodHandleRow.survey
    cases MethodHandleKind.ofCode? row.kind with
    | none => exact ensures_fail
    | some kind =>
      have htarget : (HandleTarget.survey kind row.target).Ensures v fun target =>
          methodHandle.AllRefs v.graph.Has ⟨kind, target⟩ :=
        .ite (ensures_resolve.bind fun _ h => ensures_pure h)
          (ensures_resolve.bind fun _ h => ensures_pure h)
      exact htarget.bind fun _ h => ensures_pure h
  | encodedArray =>
    exact (ensures_decodeWith Value.decodeArray_ensures).bind fun _ h => ensures_pure h
  | annotationItem =>
    refine ensures_bind fun code => ?_
    cases Visibility.ofCode? code with
    | none => exact ensures_fail
    | some visibility =>
      exact (ensures_decodeWith Annotation.decode_ensures).bind fun _ h => ensures_pure h
  | annotationSet =>
    have hentry : (do
        let itemOffset ← Survey.decode Decoder.word
        if itemOffset == 0 then return none
        else return some (← item .annotationItem itemOffset) :
        Survey (Option (Ref .annotationItem))).Ensures v fun o => ∀ r ∈ o, v.graph.Has _ r :=
      ensures_bind fun _ => .ite (ensures_pure (by simp))
        ((hv.ensures_item rfl).bind fun _ h => ensures_pure fun _ hr => Option.mem_some.mp hr ▸ h)
    refine ensures_bind fun _ => hentry.gather.bind fun items hitems => ensures_pure fun r hr => ?_
    obtain ⟨o, ho, hid⟩ := Array.mem_filterMap.mp hr
    exact hitems o ho r hid
  | annotationSetRefList =>
    exact ensures_bind fun _ => (Ensures.gather (ensures_bind fun _ => hv.ensures_item? rfl)).bind
      fun _ h => ensures_pure h
  | annotationsDirectory =>
    exact ensures_bind fun _ => ensures_bind fun _ => ensures_bind fun _ => ensures_bind fun _ =>
      (hv.ensures_item? rfl).bind fun _ h₁ => (hv.ensures_memberAnnotations rfl).gather.bind
      fun _ h₂ => (hv.ensures_memberAnnotations rfl).gather.bind fun _ h₃ =>
      (hv.ensures_memberAnnotations rfl).gather.bind fun _ h₄ => ensures_pure ⟨h₁, h₂, h₃, h₄⟩
  | codeItem =>
    refine ensures_bind fun _ => (hv.ensures_item? rfl).bind fun debugInfo h =>
      (ensures_decodeWith CodeItem.decodeAfter_ensures).mono fun x hx => ⟨?_, hx.2.handlers⟩
    rw [hx.1]
    exact h
  | classData => exact hv.ensures_classData.mono fun _ h => h.1

/-- Every try range that is read names a handler of its body. -/
theorem survey_ensures_tries :
    (survey .codeItem).Ensures v fun x => ∀ t ∈ x.tries, t.handler < x.handlers.size :=
  ensures_bind fun _ => ensures_bind fun _ =>
    (ensures_decodeWith CodeItem.decodeAfter_ensures).mono fun _ h => h.2.tries

end Section

/-! ## Where surveys start -/

section Start

variable {α β : Type} {data : Bytes} {p q : Nat}

namespace Decoder

/-- The decoder only reads from positions at which there is a byte. -/
def Touches (d : Decoder α) : Prop :=
  ∀ data p a q, d.Reads data p a q → p < data.size

theorem Touches.bind {d : Decoder α} {f : α → Decoder β} (h : d.Touches) : (d >>= f).Touches := by
  intro data p b q hb
  obtain ⟨a, r, ha, -⟩ := reads_bind_iff.mp hb
  exact h _ _ _ _ ha

theorem touches_byte : byte.Touches := by
  intro data p b q h
  exact (Array.getElem?_eq_some_iff.mp (reads_byte_iff.mp h).1).1

theorem touches_number {width : Nat} : (number (width + 1)).Touches := by
  intro data p n q h
  obtain ⟨-, -, -, hsize, -⟩ := reads_number_iff.mp h
  omega

theorem touches_halfWord : halfWord.Touches :=
  touches_number.bind

theorem touches_word : word.Touches :=
  touches_number.bind

theorem touches_unsignedLeb : unsignedLeb.Touches := by
  intro data p v q h
  obtain ⟨start, r, hstart, hgroups⟩ := reads_bind_iff.mp h
  obtain ⟨-, rfl⟩ := reads_position_iff.mp hstart
  obtain ⟨gs, r', hgs, -⟩ := reads_bind_iff.mp hgroups
  exact touches_byte.bind _ _ _ _ hgs

end Decoder

/-- A data item is only read where there is a byte. -/
theorem Section.lt_size_of_survey {s : Section} (hs : s.rowSize? = none) {v : View}
    {x : s.Content} {met : List Pointer} (h : s.survey.Reads v data p x met q) :
    p < data.size := by
  have hdecode {γ : Type} {d : Decoder γ} {f : γ → Survey s.Content} (hd : d.Touches)
      (hreads : (Survey.decode d >>= f).Reads v data p x met q) : p < data.size := by
    obtain ⟨a, first, r, rest, ha, -⟩ := reads_bind_iff.mp hreads
    exact hd _ _ _ _ (reads_decode_iff.mp ha).1
  cases s with
  | stringData =>
    exact Decoder.touches_unsignedLeb.bind _ _ _ _ (reads_decode_iff.mp h).1
  | typeList =>
    exact Decoder.touches_word.bind _ _ _ _ (reads_decodeWith_iff.mp h).1
  | encodedArray =>
    obtain ⟨values, first, r, rest, hvalues, -⟩ := reads_bind_iff.mp h
    obtain ⟨n, r', hn, harray⟩ := Decoder.reads_bind_iff.mp (reads_decodeWith_iff.mp hvalues).1
    obtain ⟨-, rfl⟩ := Decoder.reads_remaining_iff.mp hn
    exact Decoder.touches_unsignedLeb.bind _ _ _ _ harray
  | annotationItem => exact hdecode Decoder.touches_byte h
  | annotationSet | annotationSetRefList | annotationsDirectory =>
    exact hdecode Decoder.touches_word h
  | debugInfo =>
    have hskip := (reads_decode_iff.mp h).1
    unfold Decoder.Reads Decoder.runAt DebugInfo.decode at hskip
    obtain ⟨⟨u, stop⟩, hstop, -⟩ := Except.bind_eq_ok_iff.mp hskip
    exact Decoder.touches_unsignedLeb.bind _ _ _ _ hstop
  | codeItem => exact hdecode (Decoder.touches_halfWord.bind) h
  | classData => exact hdecode Decoder.touches_unsignedLeb h
  | _ => cases hs

end Start

end DexGraph
