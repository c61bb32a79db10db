import DexGraph.Assembly.Basic
import DexGraph.Codec.ClassData
import DexGraph.Codec.CodeItem
import DexGraph.Codec.DebugInfo
import DexGraph.Codec.Lists
import DexGraph.Codec.Value
import DexGraph.Format.Row
import DexGraph.Proofs.Bytes.Reads

/-!
# Surveys

A survey reads one entity of an image and nothing else. Where the image holds the offset of an
item, the survey does not follow it: it takes the entity that a given view has for this offset, and
notes that it has met the pointer. `Section.survey` is the survey of the entities of a section, the
entries of tables and the data items alike. It says what an image shows at a place, without regard
to the order in which its items are read and to how they come to be shared.
-/

namespace DexGraph

/-- An offset that an image holds for an item of a section. -/
structure Pointer where
  target : Section
  offset : UInt32
  deriving DecidableEq, Repr

/-- A graph, and which of its entities lie at the offsets of an image. -/
structure View where
  graph : Graph
  find? : (s : Section) → UInt32 → Option (Ref s)

/-- Reads in a view and notes the pointers that are met. -/
def Survey (α : Type) : Type :=
  View → Decoder (α × List Pointer)

namespace Survey

variable {α β : Type}

instance : Monad Survey where
  pure a := fun _ => pure (a, [])
  bind m f := fun v => do
    let first ← m v
    let second ← f first.1 v
    return (second.1, first.2 ++ second.2)

/-- Reads with a decoder. -/
def decode (d : Decoder α) : Survey α :=
  fun _ => (·, []) <$> d

/-- Reads with a decoder that looks indices up in the graph. -/
def decodeWith (d : Graph → Decoder α) : Survey α :=
  fun v => (·, []) <$> d v.graph

/-- The entry of a table with the given index, which has to exist. -/
def resolve (s : Section) (index : UInt32) : Survey (Ref s) :=
  decodeWith fun g => Decoder.ofExcept (g.resolve s index)

/-- Like `resolve`; the index `noIndex` stands for no entry. -/
def resolveOrNone (s : Section) (index : UInt32) : Survey (Option (Ref s)) :=
  decodeWith fun g => Decoder.ofExcept (g.resolveOrNone s index)

/-- The item at an offset that is met. -/
def item (s : Section) (offset : UInt32) : Survey (Ref s) := fun v =>
  match v.find? s offset with
  | some r => pure (r, [⟨s, offset⟩])
  | none => Decoder.fail .outOfBounds

/-- The item at an offset that is met; the offset zero stands for none. -/
def item? (s : Section) (offset : UInt32) : Survey (Option (Ref s)) := fun v =>
  if offset == 0 then pure (none, [⟨s, offset⟩])
  else do
    let found ← item s offset v
    return (some found.1, found.2)

/-! ## What surveys read -/

/-- Started at `p` in the view, the survey succeeds with `a`, has met the given pointers and stops
at `q`. -/
def Reads (m : Survey α) (v : View) (data : Bytes) (p : Nat) (a : α) (met : List Pointer)
    (q : Nat) : Prop :=
  (m v).Reads data p (a, met) q

variable {v : View} {data : Bytes} {p q : Nat} {met : List Pointer}

theorem Reads.unique {m : Survey α} {a b : α} {met' : List Pointer} {r : Nat}
    (h : m.Reads v data p a met q) (h' : m.Reads v data p b met' r) :
    a = b ∧ met = met' ∧ q = r := by
  obtain ⟨hpair, hstop⟩ := Decoder.Reads.unique h h'
  exact ⟨congrArg Prod.fst hpair, congrArg Prod.snd hpair, hstop⟩

theorem reads_pure_iff {a b : α} :
    (pure a : Survey α).Reads v data p b met q ↔ b = a ∧ met = [] ∧ q = p := by
  refine Decoder.reads_pure_iff.trans ?_
  rw [Prod.mk.injEq, and_assoc]

theorem reads_bind_iff {m : Survey α} {f : α → Survey β} {b : β} {r : Nat} :
    (m >>= f).Reads v data p b met r ↔ ∃ a first q rest, m.Reads v data p a first q ∧
      (f a).Reads v data q b rest r ∧ met = first ++ rest := by
  refine Decoder.reads_bind_iff.trans ?_
  constructor
  · rintro ⟨⟨a, first⟩, q, ha, hnext⟩
    obtain ⟨⟨b', rest⟩, r', hb, hpure⟩ := Decoder.reads_bind_iff.mp hnext
    obtain ⟨hpair, rfl⟩ := Decoder.reads_pure_iff.mp hpure
    obtain ⟨rfl, rfl⟩ := Prod.mk.inj hpair
    exact ⟨a, first, q, rest, ha, hb, rfl⟩
  · rintro ⟨a, first, q, rest, ha, hb, rfl⟩
    exact ⟨(a, first), q, ha,
      Decoder.Reads.bind (a := (b, rest)) hb (Decoder.reads_pure_iff.mpr ⟨rfl, rfl⟩)⟩

theorem Reads.bind {m : Survey α} {f : α → Survey β} {a : α} {b : β} {rest : List Pointer}
    {r : Nat} (h : m.Reads v data p a met q) (h' : (f a).Reads v data q b rest r) :
    (m >>= f).Reads v data p b (met ++ rest) r :=
  reads_bind_iff.mpr ⟨a, met, q, rest, h, h', rfl⟩

theorem reads_decodeWith_iff {d : Graph → Decoder α} {a : α} :
    (decodeWith d).Reads v data p a met q ↔ (d v.graph).Reads data p a q ∧ met = [] := by
  refine Decoder.reads_map_iff.trans ?_
  constructor
  · rintro ⟨a', h, hpair⟩
    obtain ⟨rfl, rfl⟩ := Prod.mk.inj hpair
    exact ⟨h, rfl⟩
  · rintro ⟨h, rfl⟩
    exact ⟨a, h, rfl⟩

theorem reads_decode_iff {d : Decoder α} {a : α} :
    (decode d).Reads v data p a met q ↔ d.Reads data p a q ∧ met = [] :=
  reads_decodeWith_iff (d := fun _ => d)

/-- What a decoder has read is not read again. -/
theorem reads_decode_bind_iff {d : Decoder β} {f : β → Survey α} {a : α} {b : β} {start : Nat}
    (hb : d.Reads data p b start) :
    (decode d >>= f).Reads v data p a met q ↔ (f b).Reads v data start a met q := by
  constructor
  · intro h
    obtain ⟨b', first, start', rest, hb', hrest, rfl⟩ := reads_bind_iff.mp h
    obtain ⟨hread, rfl⟩ := reads_decode_iff.mp hb'
    obtain ⟨rfl, rfl⟩ := Decoder.Reads.unique hread hb
    exact hrest
  · exact fun h => (reads_decode_iff.mpr ⟨hb, rfl⟩).bind h

theorem reads_item_iff {s : Section} {offset : UInt32} {r : Ref s} :
    (item s offset).Reads v data p r met q ↔
      v.find? s offset = some r ∧ met = [⟨s, offset⟩] ∧ q = p := by
  unfold Reads item
  cases v.find? s offset with
  | none => simp
  | some r' =>
    rw [Decoder.reads_pure_iff, Prod.mk.injEq, and_assoc, Option.some.injEq, eq_comm (a := r)]

theorem reads_item?_iff {s : Section} {offset : UInt32} {r : Option (Ref s)} :
    (item? s offset).Reads v data p r met q ↔
      r = (if offset = 0 then none else v.find? s offset) ∧ (offset ≠ 0 → r.isSome) ∧
        met = [⟨s, offset⟩] ∧ q = p := by
  unfold Reads item?
  by_cases h : offset = 0
  · rw [if_pos (by simp [h]), Decoder.reads_pure_iff, if_pos h, Prod.mk.injEq]
    simp [h, and_assoc]
  · rw [if_neg (by simpa using h), if_neg h, Decoder.reads_bind_iff]
    constructor
    · rintro ⟨⟨r', met'⟩, q', hr, hpure⟩
      obtain ⟨hfind, rfl, rfl⟩ := reads_item_iff.mp hr
      obtain ⟨hpair, rfl⟩ := Decoder.reads_pure_iff.mp hpure
      obtain ⟨rfl, rfl⟩ := Prod.mk.inj hpair
      exact ⟨hfind.symm, fun _ => rfl, rfl, rfl⟩
    · rintro ⟨hr, hsome, rfl, rfl⟩
      obtain ⟨r', rfl⟩ := Option.isSome_iff_exists.mp (hsome h)
      exact ⟨(r', _), _, reads_item_iff.mpr ⟨hr.symm, rfl, rfl⟩, Decoder.reads_pure_iff.mpr ⟨rfl, rfl⟩⟩

end Survey

/-! ## The entities -/

open Survey

/-- An annotation set. Entries without an annotation are left out, and no pointer is met there. -/
def AnnotationSet.survey : Survey AnnotationSet := do
  let count ← decode Decoder.word
  let items ← gather count.toNat do
    let itemOffset ← decode Decoder.word
    if itemOffset == 0 then return none else return some (← item .annotationItem itemOffset)
  return ⟨items.filterMap id⟩

/-- A list of annotation sets. -/
def AnnotationSetRefList.survey : Survey AnnotationSetRefList := do
  let count ← decode Decoder.word
  let items ← gather count.toNat do
    let setOffset ← decode Decoder.word
    item? .annotationSet setOffset
  return ⟨items⟩

/-- An entry of a directory of annotations. -/
def MemberAnnotations.survey (member notes : Section) : Survey (MemberAnnotations member notes) := do
  let index ← decode Decoder.word
  let offset ← decode Decoder.word
  let owner ← resolve member index
  return ⟨owner, ← item? notes offset⟩

/-- A directory of annotations. -/
def AnnotationsDirectory.survey : Survey AnnotationsDirectory := do
  let classOffset ← decode Decoder.word
  let fieldCount ← decode Decoder.word
  let methodCount ← decode Decoder.word
  let parameterCount ← decode Decoder.word
  let classAnnotations ← item? .annotationSet classOffset
  let fields ← gather fieldCount.toNat (MemberAnnotations.survey .fieldId .annotationSet)
  let methods ← gather methodCount.toNat (MemberAnnotations.survey .methodId .annotationSet)
  let parameters ← gather parameterCount.toNat
    (MemberAnnotations.survey .methodId .annotationSetRefList)
  return ⟨classAnnotations, fields, methods, parameters⟩

/-- The rest of a list of methods, of which `count` are left; `previous` is the index of the last
of those that are given. -/
def MethodItem.surveyFrom (previous : UInt32) (methods : Array MethodItem) :
    (count : Nat) → Survey (Array MethodItem)
  | 0 => return methods
  | count + 1 => do
    let delta ← decode Decoder.unsignedLeb
    let index ← decode (Decoder.ofExcept (nextIndex previous delta))
    let flags ← decode Decoder.unsignedLeb
    let codeOffset ← decode Decoder.unsignedLeb
    let method ← resolve .methodId index
    let code ← item? .codeItem codeOffset
    surveyFrom index (methods.push ⟨⟨flags⟩, method, code, none⟩) count

/-- The members of a class. -/
def ClassData.survey : Survey ClassData := do
  let staticCount ← decode Decoder.unsignedLeb
  let instanceCount ← decode Decoder.unsignedLeb
  let directCount ← decode Decoder.unsignedLeb
  let virtualCount ← decode Decoder.unsignedLeb
  let staticFields ← decodeWith fun g => FieldItem.decodeList g staticCount
  let instanceFields ← decodeWith fun g => FieldItem.decodeList g instanceCount
  let directMethods ← MethodItem.surveyFrom 0 #[] directCount.toNat
  let virtualMethods ← MethodItem.surveyFrom 0 #[] virtualCount.toNat
  return ⟨none, staticFields, instanceFields, directMethods, virtualMethods⟩

/-- A class, of which the row has been read. -/
def ClassDefRow.survey (row : ClassDefRow) : Survey ClassDef := do
  let type ← resolve .typeId row.type
  let superclass ← resolveOrNone .typeId row.superclass
  let interfaces ← item? .typeList row.interfacesOffset
  let sourceFile ← resolveOrNone .stringId row.sourceFile
  let annotations ← item? .annotationsDirectory row.annotationsOffset
  let staticValues ← item? .encodedArray row.staticValuesOffset
  let classData ← item? .classData row.classDataOffset
  return ⟨type, ⟨row.accessFlags⟩, superclass, interfaces, sourceFile, annotations, classData,
    staticValues⟩

/-- The target of a method handle. -/
def HandleTarget.survey (kind : MethodHandleKind) (index : UInt16) : Survey HandleTarget := do
  if kind.accessesField then return .field (← resolve .fieldId index.toUInt32)
  else return .method (← resolve .methodId index.toUInt32)

/-- A method handle, of which the row has been read. -/
def MethodHandleRow.survey (row : MethodHandleRow) : Survey MethodHandle := do
  match MethodHandleKind.ofCode? row.kind with
  | none => decode (Decoder.fail .outOfBounds)
  | some kind => return ⟨kind, ← HandleTarget.survey kind row.target⟩

/-- A call site, of which the row has been read: it has to have an array. -/
def CallSiteIdRow.survey (row : CallSiteIdRow) : Survey CallSiteId := do
  match ← item? .encodedArray row.arrayOffset with
  | none => decode (Decoder.fail .outOfBounds)
  | some array => return ⟨array⟩

/-- What an image shows of the entities of a section. -/
def Section.survey : (s : Section) → Survey s.Content
  | .stringData => decode StringData.decode
  | .stringId => do
    let row ← decode (Row.decode : Decoder StringIdRow)
    return ⟨← item .stringData row.dataOffset⟩
  | .typeId => do
    let row ← decode (Row.decode : Decoder TypeIdRow)
    return ⟨← resolve .stringId row.descriptor⟩
  | .typeList => decodeWith TypeList.decode
  | .protoId => do
    let row ← decode (Row.decode : Decoder ProtoIdRow)
    let shorty ← resolve .stringId row.shorty
    let returnType ← resolve .typeId row.returnType
    return ⟨shorty, returnType, ← item? .typeList row.parametersOffset⟩
  | .fieldId => do
    let row ← decode (Row.decode : Decoder FieldIdRow)
    let owner ← resolve .typeId row.owner.toUInt32
    let type ← resolve .typeId row.type.toUInt32
    return ⟨owner, type, ← resolve .stringId row.name⟩
  | .methodId => do
    let row ← decode (Row.decode : Decoder MethodIdRow)
    let owner ← resolve .typeId row.owner.toUInt32
    let proto ← resolve .protoId row.proto.toUInt32
    return ⟨owner, proto, ← resolve .stringId row.name⟩
  | .classDef => do
    let row ← decode (Row.decode : Decoder ClassDefRow)
    row.survey
  | .callSiteId => do
    let row ← decode (Row.decode : Decoder CallSiteIdRow)
    row.survey
  | .methodHandle => do
    let row ← decode (Row.decode : Decoder MethodHandleRow)
    row.survey
  | .encodedArray => do
    return ⟨← decodeWith Value.decodeArray⟩
  | .annotationItem => do
    let code ← decode Decoder.byte
    match Visibility.ofCode? code with
    | none => decode (Decoder.fail .outOfBounds)
    | some visibility => return ⟨visibility, ← decodeWith Annotation.decode⟩
  | .annotationSet => AnnotationSet.survey
  | .annotationSetRefList => AnnotationSetRefList.survey
  | .annotationsDirectory => AnnotationsDirectory.survey
  | .debugInfo => decode DebugInfo.decode
  | .codeItem => do
    let header ← decode CodeHeader.decode
    let debugInfo ← item? .debugInfo header.debugInfoOffset
    decodeWith fun g => CodeItem.decodeAfter g header debugInfo
  | .classData => ClassData.survey

end DexGraph
