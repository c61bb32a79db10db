import DexGraph.Proofs.Bytes.StoredBytes
import DexGraph.Proofs.Codec.CodeRecovery
import DexGraph.Proofs.Codec.Entity
import DexGraph.Proofs.Graph.References
import DexGraph.Proofs.Writing.Coupled

/-!
# Mirrors of a graph

A graph mirrors another if they say the same and list their data items in the same order, whatever
slots these have: entries of tables correspond by index, and a `Pairing` tells which data items
correspond. Two layouts are alike if what corresponds has the same offset in them, as far as it has
one. `Layout.Alike.encode` says that entities that mirror each other then look the same in an image.
-/

namespace DexGraph

/-! ## Mirrors -/

/-- Which entities of two graphs correspond to each other. -/
abbrev Pairing : Type :=
  (s : Section) → Ref s → Ref s → Prop

variable {ρ : Pairing}

namespace MemberAnnotations

variable {member notes : Section}

/-- The entries belong to the same member and have annotations that correspond. -/
def Mirrors (ρ : Pairing) (x y : MemberAnnotations member notes) : Prop :=
  x.owner = y.owner ∧ Option.Rel (ρ notes) x.annotations y.annotations

end MemberAnnotations

/-- The fields are the same, whatever class data they note. -/
def FieldItem.Mirrors (x y : FieldItem) : Prop :=
  x.accessFlags = y.accessFlags ∧ x.field = y.field

/-- The methods are the same and have bodies that correspond, if they are not native. -/
def MethodItem.Mirrors (ρ : Pairing) (x y : MethodItem) : Prop :=
  x.accessFlags = y.accessFlags ∧ x.method = y.method ∧ Option.Rel (ρ .codeItem) x.body? y.body?

/-- The bodies have debug info that corresponds, and are the same but for that and for the order of
their handlers. They look the same when they are stored. -/
structure CodeItem.Mirrors (ρ : Pairing) (x y : CodeItem) : Prop where
  debugInfo : Option.Rel (ρ .debugInfo) x.debugInfo y.debugInfo
  content : ({ x with debugInfo := y.debugInfo } : CodeItem).Matches y
  encode : ∀ o, Agree Stream.Alike (x.encode o) (y.encode o)

/-- The entities say the same: what they hold is equal, and the data items to which they refer
correspond. -/
def Section.Mirrors (ρ : Pairing) : (s : Section) → s.Content → s.Content → Prop
  | .stringId, x, y => ρ _ x.data y.data
  | .protoId, x, y =>
    x.shorty = y.shorty ∧ x.returnType = y.returnType ∧ Option.Rel (ρ _) x.parameters y.parameters
  | .classDef, x, y =>
    x.type = y.type ∧ x.accessFlags = y.accessFlags ∧ x.superclass = y.superclass ∧
      Option.Rel (ρ _) x.interfaces y.interfaces ∧ x.sourceFile = y.sourceFile ∧
      Option.Rel (ρ _) x.annotations y.annotations ∧ Option.Rel (ρ _) x.classData y.classData ∧
      Option.Rel (ρ _) x.staticValues y.staticValues
  | .callSiteId, x, y => ρ _ x.array y.array
  | .annotationSet, x, y => List.Forall₂ (ρ _) x.items.toList y.items.toList
  | .annotationSetRefList, x, y => List.Forall₂ (Option.Rel (ρ _)) x.items.toList y.items.toList
  | .annotationsDirectory, x, y =>
    Option.Rel (ρ _) x.classAnnotations y.classAnnotations ∧
      List.Forall₂ (MemberAnnotations.Mirrors ρ) x.fields.toList y.fields.toList ∧
      List.Forall₂ (MemberAnnotations.Mirrors ρ) x.methods.toList y.methods.toList ∧
      List.Forall₂ (MemberAnnotations.Mirrors ρ) x.parameters.toList y.parameters.toList
  | .codeItem, x, y => CodeItem.Mirrors ρ x y
  | .classData, x, y =>
    List.Forall₂ FieldItem.Mirrors x.staticFields.toList y.staticFields.toList ∧
      List.Forall₂ FieldItem.Mirrors x.instanceFields.toList y.instanceFields.toList ∧
      List.Forall₂ (MethodItem.Mirrors ρ) x.directMethods.toList y.directMethods.toList ∧
      List.Forall₂ (MethodItem.Mirrors ρ) x.virtualMethods.toList y.virtualMethods.toList
  | _, x, y => x = y

/-- The graphs say the same and list their data items in the same order. -/
structure Graph.Mirrors (g g' : Graph) (ρ : Pairing) : Prop where
  magic : g.magic = g'.magic
  endianTag : g.endianTag = g'.endianTag
  linkData : g.linkData = g'.linkData
  hiddenapi : g.hiddenapi = g'.hiddenapi
  count : ∀ s, g.count s = g'.count s
  rows : ∀ s : Section, s.rowSize? ≠ none → ∀ r : Ref s, ρ s r r
  unique : ∀ {s : Section} {r q r' q' : Ref s}, ρ s r r' → ρ s q q' → (r = q ↔ r' = q')
  items : ∀ s : Section, s.rowSize? ≠ none →
    List.Forall₂ (s.Mirrors ρ) (g.entities s).items.toList (g'.entities s).items.toList
  order : ∀ s : Section, s.rowSize? = none →
    List.Forall₂ (ρ s) (g.entities s).order.toList (g'.entities s).order.toList
  content : ∀ {s : Section} {r r' : Ref s}, s.rowSize? = none → ρ s r r' →
    Option.Rel (s.Mirrors ρ) (g.get? r) (g'.get? r')

section Refl

theorem rel_eq_refl {α : Type} {R : α → α → Prop} (hR : ∀ a, R a a) (x : Option α) :
    Option.Rel R x x := by
  cases x with
  | none => exact .none
  | some a => exact .some (hR a)

theorem forall₂_refl {α : Type} {R : α → α → Prop} (hR : ∀ a, R a a) (xs : List α) :
    List.Forall₂ R xs xs :=
  List.forall₂_same.mpr fun a _ => hR a

/-- An entity mirrors itself. -/
theorem Section.mirrors_refl (s : Section) (x : s.Content) : s.Mirrors (fun _ => Eq) x x := by
  have hrel {t : Section} (r : Option (Ref t)) : Option.Rel Eq r r := rel_eq_refl (fun _ => rfl) r
  have hmember {member notes : Section} (e : MemberAnnotations member notes) :
      e.Mirrors (fun _ => Eq) e := ⟨rfl, hrel _⟩
  have hfield (f : FieldItem) : f.Mirrors f := ⟨rfl, rfl⟩
  have hmethod (m : MethodItem) : m.Mirrors (fun _ => Eq) m := ⟨rfl, rfl, hrel _⟩
  cases s with
  | stringId | callSiteId => exact rfl
  | protoId => exact ⟨rfl, rfl, hrel _⟩
  | classDef => exact ⟨rfl, rfl, rfl, hrel _, rfl, hrel _, hrel _, hrel _⟩
  | annotationSet => exact forall₂_refl (fun _ => rfl) _
  | annotationSetRefList => exact forall₂_refl hrel _
  | annotationsDirectory =>
    exact ⟨hrel _, forall₂_refl hmember _, forall₂_refl hmember _, forall₂_refl hmember _⟩
  | codeItem => exact ⟨hrel _, .refl x, fun o => agree_refl Stream.Alike.refl _⟩
  | classData =>
    exact ⟨forall₂_refl hfield _, forall₂_refl hfield _, forall₂_refl hmethod _,
      forall₂_refl hmethod _⟩
  | _ => exact rfl

/-- A graph mirrors itself. -/
theorem Graph.mirrors_refl (g : Graph) : g.Mirrors g fun _ => Eq where
  magic := rfl
  endianTag := rfl
  linkData := rfl
  hiddenapi := rfl
  count _ := rfl
  rows _ _ _ := rfl
  unique h h' := by rw [h, h']
  items s _ := forall₂_refl s.mirrors_refl _
  order s _ := forall₂_refl (fun _ => rfl) _
  content {s r r'} _ h := h ▸ rel_eq_refl s.mirrors_refl _

end Refl

/-! ## Layouts that are alike -/

/-- The fields of the header that are settled one after the other while an image is written. -/
inductive HeaderField where
  | dataOffset
  | mapOffset
  | dataSize
  | linkOffset
  | fileSize

namespace HeaderField

/-- The field in a layout. -/
def value : HeaderField → Layout → UInt32
  | dataOffset => Layout.dataOffset
  | mapOffset => Layout.mapOffset
  | dataSize => Layout.dataSize
  | linkOffset => Layout.linkOffset
  | fileSize => Layout.fileSize

/-- The layout with another value of the field. -/
def set (v : UInt32) : HeaderField → Layout → Layout
  | dataOffset, l => { l with dataOffset := v }
  | mapOffset, l => { l with mapOffset := v }
  | dataSize, l => { l with dataSize := v }
  | linkOffset, l => { l with linkOffset := v }
  | fileSize, l => { l with fileSize := v }

variable {s : Section} (f : HeaderField) (l : Layout)

@[simp] theorem value_modifyPlace (r : Ref s) (change : Place → Place) :
    f.value (l.modifyPlace r change) = f.value l := by
  cases f <;> rfl

@[simp] theorem value_setSectionOffset (o : Option UInt32) :
    f.value (l.setSectionOffset s o) = f.value l := by
  cases f <;> rfl

end HeaderField

/-- The layouts of two graphs agree in what is looked at when the graphs are laid out anew and the
header fields `settled` are settled. -/
structure Layout.Alike (g : Graph) (ρ : Pairing) (settled : List HeaderField) (l l' : Layout) :
    Prop where
  offset : ∀ {s : Section} {r r' : Ref s}, ρ s r r' → (l.place r).offset = (l'.place r').offset
  sectionOffset : ∀ s, l.sectionOffset s = l'.sectionOffset s
  hiddenapiOffset : l.hiddenapi.offset = l'.hiddenapi.offset
  hiddenapiItem : ∀ flags, g.hiddenapi = some flags →
    flags.encode l.hiddenapi.size = flags.encode l'.hiddenapi.size
  value : ∀ f ∈ settled, f.value l = f.value l'

namespace Layout

variable {g g' : Graph} {settled : List HeaderField} {l l' : Layout} {s : Section} {r r' : Ref s}

theorem alike_clearOffsets (h : ∀ flags, g.hiddenapi = some flags →
    flags.encode l.hiddenapi.size = flags.encode l'.hiddenapi.size) :
    l.clearOffsets.Alike g ρ [] l'.clearOffsets where
  offset _ := by
    rw [place_clearOffsets, place_clearOffsets]
    rfl
  sectionOffset s := by rw [sectionOffset_clearOffsets, sectionOffset_clearOffsets]
  hiddenapiOffset := rfl
  hiddenapiItem := h
  value := by simp

namespace Alike

theorem modifyPlace (hg : g.Mirrors g' ρ) (h : l.Alike g ρ settled l') (hr : ρ s r r')
    {f f' : Place → Place}
    (hf : ∀ p p' : Place, p.offset = p'.offset → (f p).offset = (f' p').offset) :
    (l.modifyPlace r f).Alike g ρ settled (l'.modifyPlace r' f') where
  offset {t q q'} hq := by
    by_cases hst : s = t
    · subst hst
      rw [place_modifyPlace, place_modifyPlace]
      by_cases heq : r = q
      · rw [if_pos heq, if_pos ((hg.unique hr hq).mp heq)]
        exact hf _ _ (h.offset hq)
      · rw [if_neg heq, if_neg fun heq' => heq ((hg.unique hr hq).mpr heq')]
        exact h.offset hq
    · rw [place_modifyPlace_of_ne _ hst, place_modifyPlace_of_ne _ hst]
      exact h.offset hq
  sectionOffset t := by
    rw [sectionOffset_modifyPlace, sectionOffset_modifyPlace]
    exact h.sectionOffset t
  hiddenapiOffset := h.hiddenapiOffset
  hiddenapiItem := h.hiddenapiItem
  value f hf := by
    rw [HeaderField.value_modifyPlace, HeaderField.value_modifyPlace]
    exact h.value f hf

theorem setPlace (hg : g.Mirrors g' ρ) (h : l.Alike g ρ settled l') (hr : ρ s r r') (p : Place) :
    (l.setPlace r p).Alike g ρ settled (l'.setPlace r' p) :=
  h.modifyPlace hg hr fun _ _ _ => rfl

theorem setOffset (hg : g.Mirrors g' ρ) (h : l.Alike g ρ settled l') (hr : ρ s r r')
    (o : Option UInt32) : (l.setOffset r o).Alike g ρ settled (l'.setOffset r' o) :=
  h.modifyPlace hg hr fun _ _ _ => rfl

theorem setSize (hg : g.Mirrors g' ρ) (h : l.Alike g ρ settled l') (hr : ρ s r r')
    (size : UInt32) : (l.setSize r size).Alike g ρ settled (l'.setSize r' size) :=
  h.modifyPlace hg hr fun _ _ hp => hp

theorem setSectionOffset (h : l.Alike g ρ settled l') (s : Section) (o : Option UInt32) :
    (l.setSectionOffset s o).Alike g ρ settled (l'.setSectionOffset s o) where
  offset hr := by
    rw [place_setSectionOffset, place_setSectionOffset]
    exact h.offset hr
  sectionOffset t := by
    rw [sectionOffset_setSectionOffset, sectionOffset_setSectionOffset, h.sectionOffset]
  hiddenapiOffset := h.hiddenapiOffset
  hiddenapiItem := h.hiddenapiItem
  value f hf := by
    rw [HeaderField.value_setSectionOffset, HeaderField.value_setSectionOffset]
    exact h.value f hf

/-- A field of the header is settled when it is set to the same value. -/
theorem settle (h : l.Alike g ρ settled l') (f : HeaderField) (v : UInt32) :
    (f.set v l).Alike g ρ (f :: settled) (f.set v l') where
  offset := by cases f <;> exact h.offset
  sectionOffset := by cases f <;> exact h.sectionOffset
  hiddenapiOffset := by cases f <;> exact h.hiddenapiOffset
  hiddenapiItem := by cases f <;> exact h.hiddenapiItem
  value f' hf' := by
    rcases List.mem_cons.mp hf' with rfl | hf'
    · cases f' <;> rfl
    · have := h.value f' hf'
      cases f <;> cases f' <;> first | rfl | exact this

theorem offsetOf (h : l.Alike g ρ settled l') (hr : ρ s r r') : l.offsetOf r = l'.offsetOf r' := by
  unfold Layout.offsetOf
  rw [h.offset hr]

theorem offsetOrZero (h : l.Alike g ρ settled l') {r r' : Option (Ref s)}
    (hr : Option.Rel (ρ s) r r') : l.offsetOrZero r = l'.offsetOrZero r' := by
  cases hr with
  | none => rfl
  | some hr => exact h.offsetOf hr

theorem hasOffset (h : l.Alike g ρ settled l') (hr : ρ s r r') :
    (l.place r).hasOffset = (l'.place r').hasOffset := by
  unfold Place.hasOffset
  rw [h.offset hr]

end Alike

end Layout

/-! ## What an image shows -/

theorem foldlM_congr_forall₂ {α β σ : Type} {f : σ → α → Except Error σ}
    {f' : σ → β → Except Error σ} {xs : List α} {ys : List β}
    (h : List.Forall₂ (fun a b => ∀ out, f out a = f' out b) xs ys) (out : σ) :
    xs.foldlM f out = ys.foldlM f' out := by
  induction h generalizing out with
  | nil => rfl
  | cons hab _ ih =>
    rw [List.foldlM_cons, List.foldlM_cons, hab]
    exact congrArg _ (funext ih)

section Arrays

variable {α β : Type} {xs : Array α} {ys : Array β}

theorem size_eq_of_forall₂ {R : α → β → Prop} (h : List.Forall₂ R xs.toList ys.toList) :
    xs.size = ys.size := by
  simpa only [Array.length_toList] using h.length_eq

theorem foldlM_congr_array {σ : Type} {f : σ → α → Except Error σ} {f' : σ → β → Except Error σ}
    (h : List.Forall₂ (fun a b => ∀ out, f out a = f' out b) xs.toList ys.toList) (out : σ) :
    xs.foldlM f out = ys.foldlM f' out := by
  rw [← Array.foldlM_toList, ← Array.foldlM_toList]
  exact foldlM_congr_forall₂ h out

theorem encodeList_congr {f : α → Except Error Bytes} {f' : β → Except Error Bytes}
    (h : List.Forall₂ (fun a b => f a = f' b) xs.toList ys.toList) :
    encodeList xs f = encodeList ys f' := by
  have hfold (out : Bytes) : xs.foldlM (fun bytes a => return bytes ++ (← f a)) out =
      ys.foldlM (fun bytes b => return bytes ++ (← f' b)) out :=
    foldlM_congr_array (h.imp fun a b hab bytes => by rw [hab]) out
  simp only [encodeList, hfold]
  rw [size_eq_of_forall₂ h]

end Arrays

namespace Layout.Alike

variable {g : Graph} {settled : List HeaderField} {l l' : Layout} {s : Section}
  (h : l.Alike g ρ settled l')
include h

theorem encode_methods {x y : Array MethodItem}
    (hxy : List.Forall₂ (MethodItem.Mirrors ρ) x.toList y.toList) (out : MemberBytes) :
    x.foldlM (MethodItem.encode l) out = y.foldlM (MethodItem.encode l') out := by
  refine foldlM_congr_array (hxy.imp fun m n hmn out => ?_) out
  obtain ⟨hflags, hmethod, hbody⟩ := hmn
  simp only [MethodItem.encode, hflags, hmethod, h.offsetOrZero hbody]

theorem encodeEach {member notes : Section} {x y : Array (MemberAnnotations member notes)}
    (hxy : List.Forall₂ (MemberAnnotations.Mirrors ρ) x.toList y.toList) (out : Bytes) :
    MemberAnnotations.encodeEach l out x = MemberAnnotations.encodeEach l' out y := by
  unfold MemberAnnotations.encodeEach
  refine foldlM_congr_array (hxy.imp fun e e' he out => ?_) out
  simp only [MemberAnnotations.encode, he.1, h.offsetOrZero he.2]

omit h in
theorem encode_fields {x y : Array FieldItem}
    (hxy : List.Forall₂ FieldItem.Mirrors x.toList y.toList) (out : MemberBytes) :
    x.foldlM FieldItem.encode out = y.foldlM FieldItem.encode out := by
  refine foldlM_congr_array (hxy.imp fun f f' hf out => ?_) out
  simp only [FieldItem.encode, hf.1, hf.2]

theorem encode_annotationsDirectory {x y : AnnotationsDirectory}
    (hxy : Section.annotationsDirectory.Mirrors ρ x y) : x.encode l = y.encode l' := by
  obtain ⟨hclass, hfields, hmethods, hparameters⟩ := hxy
  simp only [AnnotationsDirectory.encode, h.offsetOrZero hclass, h.encodeEach hfields,
    h.encodeEach hmethods, h.encodeEach hparameters]
  rw [size_eq_of_forall₂ hfields, size_eq_of_forall₂ hmethods, size_eq_of_forall₂ hparameters]

theorem encode_classData {x y : ClassData} (hxy : Section.classData.Mirrors ρ x y) :
    x.encode l = y.encode l' := by
  obtain ⟨hstatic, hinstance, hdirect, hvirtual⟩ := hxy
  simp only [ClassData.encode, encode_fields hstatic, encode_fields hinstance,
    h.encode_methods hdirect, h.encode_methods hvirtual]
  rw [size_eq_of_forall₂ hstatic, size_eq_of_forall₂ hinstance, size_eq_of_forall₂ hdirect,
    size_eq_of_forall₂ hvirtual]

/-- Entities that mirror each other look the same in an image. -/
theorem encode {x y : s.Content} (hxy : s.Mirrors ρ x y) :
    Agree Stream.Alike (s.encode l x) (s.encode l' y) := by
  have hsame (heq : s.encode l x = s.encode l' y) : Agree Stream.Alike (s.encode l x)
      (s.encode l' y) := heq ▸ agree_refl Stream.Alike.refl _
  cases s with
  | stringData | typeId | typeList | fieldId | methodId | methodHandle | encodedArray
  | annotationItem | debugInfo =>
    obtain rfl : x = y := hxy
    exact hsame rfl
  | stringId | callSiteId =>
    exact hsame (by simp only [Section.encode, StringId.toRow, CallSiteId.toRow, h.offsetOf hxy])
  | protoId =>
    obtain ⟨hshorty, hreturn, hparameters⟩ := hxy
    exact hsame (by
      simp only [Section.encode, ProtoId.toRow, hshorty, hreturn, h.offsetOrZero hparameters])
  | classDef =>
    obtain ⟨htype, hflags, hsuper, hinterfaces, hfile, hnotes, hdata, hvalues⟩ := hxy
    exact hsame (by
      simp only [Section.encode, ClassDef.toRow, htype, hflags, hsuper, hfile,
        h.offsetOrZero hinterfaces, h.offsetOrZero hnotes, h.offsetOrZero hdata,
        h.offsetOrZero hvalues])
  | annotationSet =>
    have hlist : x.encode l = y.encode l' := encodeList_congr (List.Forall₂.imp (fun r r' hr => by
      rw [h.offsetOf hr]) hxy)
    exact hsame (by simp only [Section.encode, hlist])
  | annotationSetRefList =>
    have hlist : x.encode l = y.encode l' := encodeList_congr (List.Forall₂.imp (fun r r' hr => by
      rw [h.offsetOrZero hr]) hxy)
    exact hsame (by simp only [Section.encode, hlist])
  | annotationsDirectory =>
    exact hsame (by simp only [Section.encode, h.encode_annotationsDirectory hxy])
  | codeItem =>
    change Agree _ (l.offsetOrZero x.debugInfo >>= x.encode) (l'.offsetOrZero y.debugInfo >>= y.encode)
    rw [h.offsetOrZero hxy.debugInfo]
    exact (agree_of_eq rfl).bind fun o o' ho => ho ▸ hxy.encode o
  | classData => exact hsame (by simp only [Section.encode, h.encode_classData hxy])

end Layout.Alike

end DexGraph
