import DexGraph.CrossReferences
import DexGraph.Graph.HiddenApi
import DexGraph.Graph.Names
import DexGraph.Proofs.Assembly.Linked

/-!
# Lookups

Names, members and bodies are looked up in the collections of a graph, and where a lookup misses
the functions that read a graph go on with what stands for nothing. For each of them there is one
here that ends in `none` as soon as a lookup misses. `Graph.Intact` says that every link of a graph
leads somewhere, and `Graph.Intact.answering` that no lookup then misses.
-/

namespace DexGraph

namespace Graph

variable {g : Graph} {s : Section}

/-! ## Lookups that may miss -/

/-- The text of an entry of the string table. -/
def string? (g : Graph) (r : Ref .stringId) : Option String := do
  let entry ← g.get? r
  let data ← g.get? entry.data
  return data.text

/-- The descriptor of a type. -/
def typeDescriptor? (g : Graph) (r : Ref .typeId) : Option String := do
  let entry ← g.get? r
  g.string? entry.descriptor

/-- The signature of a field. -/
def fieldSignature? (g : Graph) (f : FieldId) : Option String := do
  let owner ← g.typeDescriptor? f.owner
  let name ← g.string? f.name
  let type ← g.typeDescriptor? f.type
  return owner ++ "->" ++ name ++ ":" ++ type

/-- The descriptors of the parameters of a prototype, one behind the other. -/
def parameterText? (g : Graph) (p : ProtoId) : Option String :=
  match p.parameters with
  | none => some ""
  | some r => do
    let list ← g.get? r
    return String.join (← list.types.toList.mapM g.typeDescriptor?)

/-- The signature of a method. -/
def methodSignature? (g : Graph) (m : MethodId) : Option String := do
  let proto ← g.get? m.proto
  let parameters ← g.parameterText? proto
  let returnType ← g.typeDescriptor? proto.returnType
  let owner ← g.typeDescriptor? m.owner
  let name ← g.string? m.name
  return owner ++ "->" ++ name ++ "(" ++ parameters ++ ")" ++ returnType

/-- The number of members of a class. -/
def memberCount? (g : Graph) (c : ClassDef) : Option Nat :=
  match c.classData with
  | none => some 0
  | some r => (g.get? r).map ClassData.memberCount

/-- No lookup misses: not those of names, of members, of the registered methods and their bodies,
nor those of the passes that lay out and write what the collections list and what this refers
to. -/
structure Answering (g : Graph) : Prop where
  strings : ∀ r, g.Has .stringId r → g.string? r = some (g.string r)
  typeDescriptors : ∀ r, g.Has .typeId r → g.typeDescriptor? r = some (g.typeDescriptor r)
  classNames : ∀ (r : Ref .classDef) c, g.get? r = some c →
    g.typeDescriptor? c.type = some (g.className c)
  fieldSignatures : ∀ (r : Ref .fieldId) f, g.get? r = some f →
    g.fieldSignature? f = some (g.fieldSignature f)
  methodSignatures : ∀ (r : Ref .methodId) m, g.get? r = some m →
    g.methodSignature? m = some (g.methodSignature m)
  memberCounts : ∀ (r : Ref .classDef) c, g.get? r = some c →
    g.memberCount? c = some (g.memberCount c)
  bodies : ∀ i l, g.methodItems[i]? = some l → ∃ m, g.methodItem? i = some m ∧
    ∀ r ∈ m.body?, ∃ code, g.get? r = some code ∧ g.bodyOf? i = some code
  listed : ∀ (s : Section), ∀ r ∈ (g.entities s).order, ∃ x, g.get? r = some x
  stored : ∀ (s : Section), ∀ x ∈ (g.entities s).items,
    s.AllRefs (fun t r => ∃ y, g.get? (s := t) r = some y) x

/-! ## Intact graphs -/

/-- Every link leads somewhere: every reference, every handler that a try range names, every note
about where members belong, and every locator. -/
structure Intact (g : Graph) : Prop where
  sound : g.Sound
  tries : ∀ (r : Ref .codeItem) (code : CodeItem), g.get? r = some code →
    ∀ t ∈ code.tries, t.handler < code.handlers.size
  linked : g.Linked

namespace Sound

variable (h : g.Sound)
include h

theorem string?_eq {r : Ref .stringId} (hr : g.Has _ r) : g.string? r = some (g.string r) := by
  obtain ⟨entry, hentry⟩ := has_iff_exists.mp hr
  obtain ⟨data, hdata⟩ := has_iff_exists.mp (h.refs _ r entry hentry)
  simp [string?, string, hentry, hdata]

theorem typeDescriptor?_eq {r : Ref .typeId} (hr : g.Has _ r) :
    g.typeDescriptor? r = some (g.typeDescriptor r) := by
  obtain ⟨entry, hentry⟩ := has_iff_exists.mp hr
  have hstring := h.string?_eq (h.refs _ r entry hentry)
  simp [typeDescriptor?, typeDescriptor, hentry, hstring]

theorem fieldSignature?_eq {r : Ref .fieldId} {f : FieldId} (hf : g.get? r = some f) :
    g.fieldSignature? f = some (g.fieldSignature f) := by
  obtain ⟨howner, htype, hname⟩ := h.refs _ r f hf
  simp [fieldSignature?, fieldSignature, h.typeDescriptor?_eq howner, h.typeDescriptor?_eq htype,
    h.string?_eq hname]

omit h in
private theorem mapM_eq_some_map {α β : Type} {f : α → Option β} {k : α → β} {l : List α}
    (hf : ∀ x ∈ l, f x = some (k x)) : l.mapM f = some (l.map k) := by
  induction l with
  | nil => rfl
  | cons x rest ih =>
    rw [List.forall_mem_cons] at hf
    rw [List.mapM_cons, hf.1, ih hf.2]
    rfl

theorem parameterText?_eq {r : Ref .protoId} {p : ProtoId} (hp : g.get? r = some p) :
    g.parameterText? p = some (g.parameterText p) := by
  obtain ⟨-, -, hlist⟩ := h.refs _ r p hp
  unfold parameterText? parameterText
  cases hparameters : p.parameters with
  | none => rfl
  | some l =>
    obtain ⟨list, hl⟩ := has_iff_exists.mp (hlist l hparameters)
    have hall : list.types.toList.mapM g.typeDescriptor? =
        some (list.types.toList.map g.typeDescriptor) :=
      mapM_eq_some_map fun t ht =>
        h.typeDescriptor?_eq (h.refs _ l list hl t (Array.mem_toList_iff.mp ht))
    simp [hl, hall]

theorem methodSignature?_eq {r : Ref .methodId} {m : MethodId} (hm : g.get? r = some m) :
    g.methodSignature? m = some (g.methodSignature m) := by
  obtain ⟨howner, hproto, hname⟩ := h.refs _ r m hm
  obtain ⟨proto, hp⟩ := has_iff_exists.mp hproto
  obtain ⟨-, hreturn, -⟩ := h.refs _ _ proto hp
  simp [methodSignature?, methodSignature, hp, h.parameterText?_eq hp,
    h.typeDescriptor?_eq howner, h.typeDescriptor?_eq hreturn, h.string?_eq hname]

theorem memberCount?_eq {r : Ref .classDef} {c : ClassDef} (hc : g.get? r = some c) :
    g.memberCount? c = some (g.memberCount c) := by
  unfold memberCount? memberCount
  cases hmembers : c.classData with
  | none => rfl
  | some d =>
    obtain ⟨-, -, -, -, -, hdata, -⟩ := h.refs _ r c hc
    obtain ⟨members, hd⟩ := has_iff_exists.mp (hdata d hmembers)
    simp [hd]

end Sound

/-- Looking up a registered method finds it, and its body if it has one. -/
theorem Intact.exists_methodItem? (h : g.Intact) {i : UInt32} {l : MethodLocator}
    (hl : g.methodItems[i]? = some l) : ∃ m, g.methodItem? i = some m ∧
      ∀ r ∈ m.body?, ∃ code, g.get? r = some code ∧ g.bodyOf? i = some code := by
  obtain ⟨m, hm, -⟩ := h.linked.locators i l hl
  obtain ⟨c, hc, hk⟩ := methodAt?_eq_some_iff.mp hm
  have hitem : g.methodItem? i = some m := by simp [methodItem?, hl, hm]
  refine ⟨m, hitem, fun r hr => ?_⟩
  have hmem : m ∈ c.allMethods := by
    have hmem := Array.mem_of_getElem? hk
    cases hkind : l.kind with
    | direct =>
      rw [hkind] at hmem
      exact Array.mem_append.mpr (.inl hmem)
    | virtual =>
      rw [hkind] at hmem
      exact Array.mem_append.mpr (.inr hmem)
  obtain ⟨-, hmethods⟩ := h.sound.refs .classData _ c hc
  obtain ⟨code, hcode⟩ :=
    has_iff_exists.mp ((hmethods m hmem).2 r (MethodItem.code_of_body? hr))
  refine ⟨code, hcode, ?_⟩
  rw [Option.mem_def] at hr
  simp [bodyOf?, hitem, hr, hcode]

/-- In an intact graph no lookup misses. -/
theorem Intact.answering (h : g.Intact) : g.Answering where
  strings _ hr := h.sound.string?_eq hr
  typeDescriptors _ hr := h.sound.typeDescriptor?_eq hr
  classNames r c hc := h.sound.typeDescriptor?_eq (h.sound.refs _ r c hc).1
  fieldSignatures _ _ hf := h.sound.fieldSignature?_eq hf
  methodSignatures _ _ hm := h.sound.methodSignature?_eq hm
  memberCounts _ _ hc := h.sound.memberCount?_eq hc
  bodies _ _ hl := h.exists_methodItem? hl
  listed _ _ hr := has_iff_exists.mp (h.sound.mem_order.mp hr)
  stored s x hx := by
    obtain ⟨r, hr⟩ := h.sound.exists_get?_of_mem hx
    have hfound : (fun t (r : Ref t) => ∃ y, g.get? r = some y) = g.Has := by
      funext t r
      exact propext has_iff_exists.symm
    rw [hfound]
    exact h.sound.refs s r x hr

end Graph

end DexGraph
