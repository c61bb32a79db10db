import DexGraph.Graph.Basic
import DexGraph.Proofs.Layout.Places

/-!
# The references of a graph

`Section.AllRefs p x` says that `p` holds of every reference by which the content `x` of an entity
names others, apart from the notes by which members know where they belong.
`Section.AllOffsets p x` says so only of the references that an image stores as offsets.

A graph is `Sound` if every collection lists each of its entities once in its order, and every
reference names an entity that exists.
-/

namespace DexGraph

/-! ## The references of an entity -/

namespace Value

mutual

/-- Whether `p` holds of every reference in a value. -/
def AllRefs (p : (t : Section) → Ref t → Prop) : Value → Prop
  | .methodType r => p _ r
  | .methodHandle r => p _ r
  | .string r => p _ r
  | .type r => p _ r
  | .field r => p _ r
  | .method r => p _ r
  | .enum r => p _ r
  | .array values => AllRefsEach p values
  | .annotated owner elements => p _ owner ∧ AllRefsElements p elements
  | .byte _ | .short _ | .char _ | .int _ | .long _ | .float _ | .double _ | .null | .boolean _ =>
    True

/-- Whether `p` holds of every reference in a list of values. -/
def AllRefsEach (p : (t : Section) → Ref t → Prop) : List Value → Prop
  | [] => True
  | v :: rest => v.AllRefs p ∧ AllRefsEach p rest

/-- Whether `p` holds of every reference in the elements of an annotation. -/
def AllRefsElements (p : (t : Section) → Ref t → Prop) : List (Ref .stringId × Value) → Prop
  | [] => True
  | (name, v) :: rest => p _ name ∧ v.AllRefs p ∧ AllRefsElements p rest

end

end Value

namespace Section

/-- Whether `p` holds of every reference by which the content of an entity names others. -/
def AllRefs (p : (t : Section) → Ref t → Prop) : (s : Section) → s.Content → Prop
  | .stringData, _ => True
  | .stringId, x => p _ x.data
  | .typeId, x => p _ x.descriptor
  | .typeList, x => ∀ r ∈ x.types, p _ r
  | .protoId, x => p _ x.shorty ∧ p _ x.returnType ∧ ∀ r ∈ x.parameters, p _ r
  | .fieldId, x => p _ x.owner ∧ p _ x.type ∧ p _ x.name
  | .methodId, x => p _ x.owner ∧ p _ x.proto ∧ p _ x.name
  | .classDef, x =>
    p _ x.type ∧ (∀ r ∈ x.superclass, p _ r) ∧ (∀ r ∈ x.interfaces, p _ r) ∧
      (∀ r ∈ x.sourceFile, p _ r) ∧ (∀ r ∈ x.annotations, p _ r) ∧ (∀ r ∈ x.classData, p _ r) ∧
      ∀ r ∈ x.staticValues, p _ r
  | .callSiteId, x => p _ x.array
  | .methodHandle, x =>
    match x.target with
    | .field r => p _ r
    | .method r => p _ r
  | .encodedArray, x => Value.AllRefsEach p x.values
  | .annotationItem, x => p _ x.body.type ∧ Value.AllRefsElements p x.body.elements
  | .annotationSet, x => ∀ r ∈ x.items, p _ r
  | .annotationSetRefList, x => ∀ o ∈ x.items, ∀ r ∈ o, p _ r
  | .annotationsDirectory, x =>
    (∀ r ∈ x.classAnnotations, p _ r) ∧
      (∀ e ∈ x.fields, p _ e.owner ∧ ∀ r ∈ e.annotations, p _ r) ∧
      (∀ e ∈ x.methods, p _ e.owner ∧ ∀ r ∈ e.annotations, p _ r) ∧
      ∀ e ∈ x.parameters, p _ e.owner ∧ ∀ r ∈ e.annotations, p _ r
  | .debugInfo, _ => True
  | .codeItem, x =>
    (∀ r ∈ x.debugInfo, p _ r) ∧ ∀ h ∈ x.handlers, ∀ c ∈ h.clauses, ∀ r ∈ c.type, p _ r
  | .classData, x =>
    (∀ f ∈ x.allFields, p _ f.field) ∧
      ∀ m ∈ x.allMethods, p _ m.method ∧ ∀ r ∈ m.code, p _ r

/-- Whether `p` holds of every reference of the content of an entity that an image stores as an
offset. The body of a native method is not among them. -/
def AllOffsets (p : (t : Section) → Ref t → Prop) : (s : Section) → s.Content → Prop
  | .stringId, x => p _ x.data
  | .protoId, x => ∀ r ∈ x.parameters, p _ r
  | .classDef, x =>
    (∀ r ∈ x.interfaces, p _ r) ∧ (∀ r ∈ x.annotations, p _ r) ∧ (∀ r ∈ x.classData, p _ r) ∧
      ∀ r ∈ x.staticValues, p _ r
  | .callSiteId, x => p _ x.array
  | .annotationSet, x => ∀ r ∈ x.items, p _ r
  | .annotationSetRefList, x => ∀ o ∈ x.items, ∀ r ∈ o, p _ r
  | .annotationsDirectory, x =>
    (∀ r ∈ x.classAnnotations, p _ r) ∧ (∀ e ∈ x.fields, ∀ r ∈ e.annotations, p _ r) ∧
      (∀ e ∈ x.methods, ∀ r ∈ e.annotations, p _ r) ∧
      ∀ e ∈ x.parameters, ∀ r ∈ e.annotations, p _ r
  | .codeItem, x => ∀ r ∈ x.debugInfo, p _ r
  | .classData, x => ∀ m ∈ x.allMethods, ∀ r ∈ m.body?, p _ r
  | _, _ => True

end Section

section Mono

variable {p p' : (t : Section) → Ref t → Prop}

namespace Value

mutual

/-- A value refers to entries of tables only. -/
theorem AllRefs.mono (h : ∀ t : Section, t.rowSize? ≠ none → ∀ r, p t r → p' t r) :
    ∀ {v : Value}, v.AllRefs p → v.AllRefs p'
  | .methodType _, hv | .methodHandle _, hv | .string _, hv | .type _, hv | .field _, hv
  | .method _, hv | .enum _, hv => h _ (by decide) _ hv
  | .array _, hv => AllRefsEach.mono h hv
  | .annotated _ _, hv => ⟨h _ (by decide) _ hv.1, AllRefsElements.mono h hv.2⟩
  | .byte _, _ | .short _, _ | .char _, _ | .int _, _ | .long _, _ | .float _, _ | .double _, _
  | .null, _ | .boolean _, _ => trivial

theorem AllRefsEach.mono (h : ∀ t : Section, t.rowSize? ≠ none → ∀ r, p t r → p' t r) :
    ∀ {values : List Value}, AllRefsEach p values → AllRefsEach p' values
  | [], _ => trivial
  | _ :: _, hv => ⟨AllRefs.mono h hv.1, AllRefsEach.mono h hv.2⟩

theorem AllRefsElements.mono (h : ∀ t : Section, t.rowSize? ≠ none → ∀ r, p t r → p' t r) :
    ∀ {elements : List (Ref .stringId × Value)},
      AllRefsElements p elements → AllRefsElements p' elements
  | [], _ => trivial
  | (_, _) :: _, hv =>
    ⟨h _ (by decide) _ hv.1, AllRefs.mono h hv.2.1, AllRefsElements.mono h hv.2.2⟩

end

mutual

/-- Two things that hold of every reference in a value hold of it together. -/
theorem AllRefs.and : ∀ {v : Value}, v.AllRefs p → v.AllRefs p' →
    v.AllRefs fun t r => p t r ∧ p' t r
  | .methodType _, h, h' | .methodHandle _, h, h' | .string _, h, h' | .type _, h, h'
  | .field _, h, h' | .method _, h, h' | .enum _, h, h' => ⟨h, h'⟩
  | .array _, h, h' => AllRefsEach.and h h'
  | .annotated _ _, h, h' => ⟨⟨h.1, h'.1⟩, AllRefsElements.and h.2 h'.2⟩
  | .byte _, _, _ | .short _, _, _ | .char _, _, _ | .int _, _, _ | .long _, _, _
  | .float _, _, _ | .double _, _, _ | .null, _, _ | .boolean _, _, _ => trivial

theorem AllRefsEach.and : ∀ {values : List Value}, AllRefsEach p values →
    AllRefsEach p' values → AllRefsEach (fun t r => p t r ∧ p' t r) values
  | [], _, _ => trivial
  | _ :: _, h, h' => ⟨AllRefs.and h.1 h'.1, AllRefsEach.and h.2 h'.2⟩

theorem AllRefsElements.and : ∀ {elements : List (Ref .stringId × Value)},
    AllRefsElements p elements → AllRefsElements p' elements →
      AllRefsElements (fun t r => p t r ∧ p' t r) elements
  | [], _, _ => trivial
  | (_, _) :: _, h, h' =>
    ⟨⟨h.1, h'.1⟩, AllRefs.and h.2.1 h'.2.1, AllRefsElements.and h.2.2 h'.2.2⟩

end

end Value

theorem Section.AllRefs.mono {s : Section} {x : s.Content} (hx : s.AllRefs p x)
    (h : ∀ t r, p t r → p' t r) : s.AllRefs p' x := by
  cases s with
  | stringData | debugInfo => trivial
  | stringId | typeId | callSiteId => exact h _ _ hx
  | typeList | annotationSet => exact fun r hr => h _ _ (hx r hr)
  | protoId => exact ⟨h _ _ hx.1, h _ _ hx.2.1, fun r hr => h _ _ (hx.2.2 r hr)⟩
  | fieldId | methodId => exact ⟨h _ _ hx.1, h _ _ hx.2.1, h _ _ hx.2.2⟩
  | classDef =>
    obtain ⟨ht, hs, hi, hf, ha, hc, hv⟩ := hx
    exact ⟨h _ _ ht, fun r hr => h _ _ (hs r hr), fun r hr => h _ _ (hi r hr),
      fun r hr => h _ _ (hf r hr), fun r hr => h _ _ (ha r hr), fun r hr => h _ _ (hc r hr),
      fun r hr => h _ _ (hv r hr)⟩
  | methodHandle =>
    obtain ⟨kind, target⟩ := x
    cases target with
    | field r => exact h _ _ hx
    | method r => exact h _ _ hx
  | encodedArray => exact Value.AllRefsEach.mono (fun t _ => h t) hx
  | annotationItem => exact ⟨h _ _ hx.1, Value.AllRefsElements.mono (fun t _ => h t) hx.2⟩
  | annotationSetRefList => exact fun o ho r hr => h _ _ (hx o ho r hr)
  | annotationsDirectory =>
    obtain ⟨hc, hf, hm, hp⟩ := hx
    exact ⟨fun r hr => h _ _ (hc r hr),
      fun e he => ⟨h _ _ (hf e he).1, fun r hr => h _ _ ((hf e he).2 r hr)⟩,
      fun e he => ⟨h _ _ (hm e he).1, fun r hr => h _ _ ((hm e he).2 r hr)⟩,
      fun e he => ⟨h _ _ (hp e he).1, fun r hr => h _ _ ((hp e he).2 r hr)⟩⟩
  | codeItem =>
    exact ⟨fun r hr => h _ _ (hx.1 r hr), fun c hc k hk r hr => h _ _ (hx.2 c hc k hk r hr)⟩
  | classData =>
    exact ⟨fun f hf => h _ _ (hx.1 f hf),
      fun m hm => ⟨h _ _ (hx.2 m hm).1, fun r hr => h _ _ ((hx.2 m hm).2 r hr)⟩⟩

theorem Section.AllRefs.and {s : Section} {x : s.Content} (h : s.AllRefs p x)
    (h' : s.AllRefs p' x) : s.AllRefs (fun t r => p t r ∧ p' t r) x := by
  cases s with
  | stringData | debugInfo => trivial
  | stringId | typeId | callSiteId => exact ⟨h, h'⟩
  | typeList | annotationSet => exact fun r hr => ⟨h r hr, h' r hr⟩
  | protoId => exact ⟨⟨h.1, h'.1⟩, ⟨h.2.1, h'.2.1⟩, fun r hr => ⟨h.2.2 r hr, h'.2.2 r hr⟩⟩
  | fieldId | methodId => exact ⟨⟨h.1, h'.1⟩, ⟨h.2.1, h'.2.1⟩, h.2.2, h'.2.2⟩
  | classDef =>
    obtain ⟨ht, hs, hi, hf, ha, hc, hv⟩ := h
    obtain ⟨ht', hs', hi', hf', ha', hc', hv'⟩ := h'
    exact ⟨⟨ht, ht'⟩, fun r hr => ⟨hs r hr, hs' r hr⟩, fun r hr => ⟨hi r hr, hi' r hr⟩,
      fun r hr => ⟨hf r hr, hf' r hr⟩, fun r hr => ⟨ha r hr, ha' r hr⟩,
      fun r hr => ⟨hc r hr, hc' r hr⟩, fun r hr => ⟨hv r hr, hv' r hr⟩⟩
  | methodHandle =>
    obtain ⟨kind, target⟩ := x
    cases target with
    | field r => exact ⟨h, h'⟩
    | method r => exact ⟨h, h'⟩
  | encodedArray => exact Value.AllRefsEach.and h h'
  | annotationItem => exact ⟨⟨h.1, h'.1⟩, Value.AllRefsElements.and h.2 h'.2⟩
  | annotationSetRefList => exact fun o ho r hr => ⟨h o ho r hr, h' o ho r hr⟩
  | annotationsDirectory =>
    obtain ⟨hc, hf, hm, hp⟩ := h
    obtain ⟨hc', hf', hm', hp'⟩ := h'
    have hmember {member notes : Section} {e : MemberAnnotations member notes}
        (he : p member e.owner ∧ ∀ r ∈ e.annotations, p notes r)
        (he' : p' member e.owner ∧ ∀ r ∈ e.annotations, p' notes r) :
        (p member e.owner ∧ p' member e.owner) ∧ ∀ r ∈ e.annotations, p notes r ∧ p' notes r :=
      ⟨⟨he.1, he'.1⟩, fun r hr => ⟨he.2 r hr, he'.2 r hr⟩⟩
    exact ⟨fun r hr => ⟨hc r hr, hc' r hr⟩, fun e he => hmember (hf e he) (hf' e he),
      fun e he => hmember (hm e he) (hm' e he), fun e he => hmember (hp e he) (hp' e he)⟩
  | codeItem =>
    exact ⟨fun r hr => ⟨h.1 r hr, h'.1 r hr⟩,
      fun c hc k hk r hr => ⟨h.2 c hc k hk r hr, h'.2 c hc k hk r hr⟩⟩
  | classData =>
    exact ⟨fun f hf => ⟨h.1 f hf, h'.1 f hf⟩, fun m hm => ⟨⟨(h.2 m hm).1, (h'.2 m hm).1⟩,
      fun r hr => ⟨(h.2 m hm).2 r hr, (h'.2 m hm).2 r hr⟩⟩⟩

end Mono

theorem MethodItem.code_of_body? {m : MethodItem} {r : Ref .codeItem} (h : r ∈ m.body?) :
    r ∈ m.code := by
  unfold MethodItem.body? at h
  split at h
  · cases h
  · exact h

theorem Section.AllRefs.allOffsets {p : (t : Section) → Ref t → Prop} {s : Section}
    {x : s.Content} (h : s.AllRefs p x) : s.AllOffsets p x := by
  cases s with
  | stringId => exact h
  | protoId => exact h.2.2
  | classDef => exact ⟨h.2.2.1, h.2.2.2.2.1, h.2.2.2.2.2.1, h.2.2.2.2.2.2⟩
  | callSiteId => exact h
  | annotationSet => exact h
  | annotationSetRefList => exact h
  | annotationsDirectory =>
    exact ⟨h.1, fun e he => (h.2.1 e he).2, fun e he => (h.2.2.1 e he).2,
      fun e he => (h.2.2.2 e he).2⟩
  | codeItem => exact h.1
  | classData => exact fun m hm r hr => (h.2 m hm).2 r (MethodItem.code_of_body? hr)
  | _ => trivial

/-! ## Sound graphs -/

/-- The order of a collection lists every entity once, and every entity has a slot of its own. -/
structure Collection.Coherent {s : Section} (c : Collection s) : Prop where
  size_lt : c.size < 2 ^ 32
  nodup_order : c.order.toList.Nodup
  mem_order_iff : ∀ r, r ∈ c.order ↔ r.pos < c.size

namespace Graph

variable {g : Graph} {s : Section}

/-- The graph has the entity that a reference names. -/
def Has (g : Graph) (s : Section) (r : Ref s) : Prop :=
  r.pos < g.count s

instance (g : Graph) (s : Section) (r : Ref s) : Decidable (g.Has s r) :=
  inferInstanceAs (Decidable (r.pos < g.count s))

/-- Every collection is coherent and every reference names an entity of the graph. -/
structure Sound (g : Graph) : Prop where
  coherent : ∀ s, (g.entities s).Coherent
  refs : ∀ (s : Section) (r : Ref s) (x : s.Content), g.get? r = some x → s.AllRefs g.Has x

theorem has_iff_exists {r : Ref s} : g.Has s r ↔ ∃ x, g.get? r = some x := by
  unfold Has count get? Collection.get? Collection.size
  constructor
  · intro h
    exact ⟨_, Array.getElem?_eq_getElem h⟩
  · rintro ⟨x, h⟩
    exact (Array.getElem?_eq_some_iff.mp h).1

theorem has_of_get? {r : Ref s} {x : s.Content} (h : g.get? r = some x) : g.Has s r :=
  has_iff_exists.mpr ⟨x, h⟩

theorem Sound.exists_get?_of_mem (h : g.Sound) {x : s.Content} (hx : x ∈ (g.entities s).items) :
    ∃ r : Ref s, g.get? r = some x := by
  obtain ⟨i, hi, rfl⟩ := Array.mem_iff_getElem.mp hx
  have hpos : (Ref.ofPos i : Ref s).pos = i :=
    Ref.pos_ofPos (Nat.lt_trans hi (h.coherent s).size_lt)
  exact ⟨.ofPos i, by rw [get?, Collection.get?, hpos, Array.getElem?_eq_getElem hi]⟩

theorem Sound.mem_order (h : g.Sound) {r : Ref s} : r ∈ (g.entities s).order ↔ g.Has s r :=
  (h.coherent s).mem_order_iff r

end Graph

end DexGraph
