import DexGraph.Codec.Lists
import DexGraph.Codec.Tables
import DexGraph.Codec.Value
import DexGraph.Proofs.Codec.ClassDataShape
import DexGraph.Proofs.Codec.CodeShape
import DexGraph.Proofs.Graph.References

/-!
# The image of an entity

`Section.encode l s x` is what an image holds for the content `x` of an entity of section `s` when
the layout is `l`: the row of an entry of a table, or a data item. Four facts hold of all sections:
the image of an entity is tight and not empty, it stays the same when a layout is extended, and it
can only fail for want of an offset if a reference that is stored as an offset has none.
-/

namespace DexGraph

/-- What an image holds for an entity under a layout. -/
def Section.encode (l : Layout) : (s : Section) → s.Content → Except Error Stream
  | .stringData, x => .ok (.ofBytes x.encode)
  | .stringId, x => return .ofBytes (Row.encode (← x.toRow l))
  | .typeId, x => return .ofBytes (Row.encode (← x.toRow))
  | .typeList, x => return .ofBytes (← x.encode)
  | .protoId, x => return .ofBytes (Row.encode (← x.toRow l))
  | .fieldId, x => return .ofBytes (Row.encode (← x.toRow))
  | .methodId, x => return .ofBytes (Row.encode (← x.toRow))
  | .classDef, x => return .ofBytes (Row.encode (← x.toRow l))
  | .callSiteId, x => return .ofBytes (Row.encode (← x.toRow l))
  | .methodHandle, x => return .ofBytes (Row.encode (← x.toRow))
  | .encodedArray, x => return .ofBytes (← Value.encodeArray x.values).toArray
  | .annotationItem, x => return .ofBytes (x.visibility.code :: (← x.body.encode)).toArray
  | .annotationSet, x => return .ofBytes (← x.encode l)
  | .annotationSetRefList, x => return .ofBytes (← x.encode l)
  | .annotationsDirectory, x => return .ofBytes (← x.encode l)
  | .debugInfo, x => .ok (.ofBytes x.bytes)
  | .codeItem, x => do x.encode (← l.offsetOrZero x.debugInfo)
  | .classData, x => return .ofBytes (← x.encode l)

/-- The image of an entity is not empty: only a debug-info stream could be. -/
def Section.TakesSpace : (s : Section) → s.Content → Prop
  | .debugInfo, x => 0 < x.bytes.size
  | _, _ => True

namespace Layout

/-- An offset has been assigned to the entity that a reference names. -/
def Assigned (l : Layout) (s : Section) (r : Ref s) : Prop :=
  ∃ o, (l.place r).offset = some o

variable {l l' : Layout} {s : Section}

theorem Extends.assigned (h : l.Extends l') {r : Ref s} (hr : l.Assigned s r) :
    l'.Assigned s r := by
  obtain ⟨o, ho⟩ := hr
  exact ⟨o, h s r o ho⟩

theorem offsetOf_ne_error {r : Ref s} (h : l.Assigned s r) (e : Error) :
    l.offsetOf r ≠ .error e := by
  obtain ⟨o, ho⟩ := h
  rw [offsetOf_eq_ok_iff.mpr ho]
  rintro ⟨⟩

theorem offsetOrZero_ne_error {r : Option (Ref s)} (h : ∀ x ∈ r, l.Assigned s x) (e : Error) :
    l.offsetOrZero r ≠ .error e := by
  cases r with
  | none => rintro ⟨⟩
  | some r => exact offsetOf_ne_error (h r rfl) e

end Layout

/-! ## Lists and directories -/

theorem encodeList_eq_ok_iff {α : Type} {f : α → Except Error Bytes} {elements : Array α}
    {out : Bytes} :
    encodeList elements f = .ok out ↔
      elements.size < 2 ^ 32 ∧ ∃ tail, Bytes.pieces f elements.toList = .ok tail ∧
        out.toList = (Bytes.ofWord elements.size.toUInt32).toList ++ tail := by
  simp only [encodeList, Except.bind_eq_ok_iff, ← Array.foldlM_toList,
    Bytes.foldlM_append_eq_ok_iff, toWord_eq_ok_iff_lt]
  constructor
  · rintro ⟨_, ⟨hsize, rfl⟩, h⟩
    exact ⟨hsize, h⟩
  · rintro ⟨hsize, h⟩
    exact ⟨_, ⟨hsize, rfl⟩, h⟩

theorem encodeList_eq_error {α : Type} {f : α → Except Error Bytes} {elements : Array α}
    {e : Error} (h : encodeList elements f = .error e) (he : e.LacksOffset) :
    ∃ x ∈ elements, f x = .error e := by
  simp only [encodeList, Except.bind_eq_error_iff, ← Array.foldlM_toList] at h
  rcases h with h | ⟨_, -, h⟩
  · exact absurd he (not_lacksOffset_of_toWord h)
  · obtain ⟨x, hx, hfx⟩ := Bytes.foldlM_append_eq_error h
    exact ⟨x, by simpa using hx, hfx⟩

namespace AnnotationsDirectory

/-- The four words at the start of a directory whose class annotations lie at an offset. -/
def headBytes (x : AnnotationsDirectory) (classOffset : UInt32) : List UInt8 :=
  (Bytes.ofWord classOffset).toList ++ (Bytes.ofWord x.fields.size.toUInt32).toList ++
    (Bytes.ofWord x.methods.size.toUInt32).toList ++
    (Bytes.ofWord x.parameters.size.toUInt32).toList

private theorem encodeEach_eq_ok_iff {member notes : Section} {l : Layout} {start out : Bytes}
    {entries : Array (MemberAnnotations member notes)} :
    MemberAnnotations.encodeEach l start entries = .ok out ↔
      ∃ tail, Bytes.pieces (MemberAnnotations.encode l) entries.toList = .ok tail ∧
        out.toList = start.toList ++ tail := by
  rw [MemberAnnotations.encodeEach, ← Array.foldlM_toList, Bytes.foldlM_append_eq_ok_iff]

private theorem encodeEach_eq_error {member notes : Section} {l : Layout} {start : Bytes}
    {entries : Array (MemberAnnotations member notes)} {e : Error}
    (h : MemberAnnotations.encodeEach l start entries = .error e) :
    ∃ x ∈ entries, x.encode l = .error e := by
  rw [MemberAnnotations.encodeEach, ← Array.foldlM_toList] at h
  obtain ⟨x, hx, hfx⟩ := Bytes.foldlM_append_eq_error h
  exact ⟨x, by simpa using hx, hfx⟩

/-- A written directory, taken apart. -/
theorem encode_eq_ok_iff {l : Layout} {x : AnnotationsDirectory} {out : Bytes} :
    x.encode l = .ok out ↔
      x.fields.size < 2 ^ 32 ∧ x.methods.size < 2 ^ 32 ∧ x.parameters.size < 2 ^ 32 ∧
        ∃ o fields methods parameters, l.offsetOrZero x.classAnnotations = .ok o ∧
          Bytes.pieces (MemberAnnotations.encode l) x.fields.toList = .ok fields ∧
          Bytes.pieces (MemberAnnotations.encode l) x.methods.toList = .ok methods ∧
          Bytes.pieces (MemberAnnotations.encode l) x.parameters.toList = .ok parameters ∧
          out.toList = x.headBytes o ++ fields ++ methods ++ parameters := by
  simp only [encode, Except.bind_eq_ok_iff, encodeEach_eq_ok_iff, toWord_eq_ok_iff_lt, headBytes]
  constructor
  · rintro ⟨o, ho, _, ⟨hf, rfl⟩, _, ⟨hm, rfl⟩, _, ⟨hp, rfl⟩, b₁, ⟨t₁, h₁, e₁⟩, b₂, ⟨t₂, h₂, e₂⟩,
      t₃, h₃, e₃⟩
    exact ⟨hf, hm, hp, o, t₁, t₂, t₃, ho, h₁, h₂, h₃, by simp [e₃, e₂, e₁]⟩
  · rintro ⟨hf, hm, hp, o, t₁, t₂, t₃, ho, h₁, h₂, h₃, e⟩
    exact ⟨o, ho, _, ⟨hf, rfl⟩, _, ⟨hm, rfl⟩, _, ⟨hp, rfl⟩, (x.headBytes o ++ t₁).toArray,
      ⟨t₁, h₁, by simp [headBytes]⟩, (x.headBytes o ++ t₁ ++ t₂).toArray, ⟨t₂, h₂, by simp⟩,
      t₃, h₃, by simp [e, headBytes]⟩

theorem encode_eq_error {l : Layout} {x : AnnotationsDirectory} {e : Error}
    (h : x.encode l = .error e) (he : e.LacksOffset) :
    l.offsetOrZero x.classAnnotations = .error e ∨ (∃ y ∈ x.fields, y.encode l = .error e) ∨
      (∃ y ∈ x.methods, y.encode l = .error e) ∨ ∃ y ∈ x.parameters, y.encode l = .error e := by
  simp only [encode, Except.bind_eq_error_iff] at h
  rcases h with h | ⟨_, -, h | ⟨_, -, h | ⟨_, -, h | ⟨_, -, h | ⟨_, -, h | ⟨_, -, h⟩⟩⟩⟩⟩⟩
  · exact .inl h
  · exact absurd he (not_lacksOffset_of_toWord h)
  · exact absurd he (not_lacksOffset_of_toWord h)
  · exact absurd he (not_lacksOffset_of_toWord h)
  · exact .inr (.inl (encodeEach_eq_error h))
  · exact .inr (.inr (.inl (encodeEach_eq_error h)))
  · exact .inr (.inr (.inr (encodeEach_eq_error h)))

end AnnotationsDirectory

theorem MemberAnnotations.encode_eq_ok_iff {member notes : Section} {l : Layout}
    {x : MemberAnnotations member notes} {part : Bytes} :
    x.encode l = .ok part ↔ ∃ o, l.offsetOrZero x.annotations = .ok o ∧
      part = .ofWord x.owner.slot ++ .ofWord o := by
  simp only [encode, Except.bind_eq_ok_iff, Except.pure_eq_ok_iff]

theorem MemberAnnotations.encode_mono {member notes : Section} {l l' : Layout} (hl : l.Extends l')
    {x : MemberAnnotations member notes} {part : Bytes} (h : x.encode l = .ok part) :
    x.encode l' = .ok part := by
  obtain ⟨o, ho, rfl⟩ := encode_eq_ok_iff.mp h
  exact encode_eq_ok_iff.mpr ⟨o, hl.offsetOrZero ho, rfl⟩

theorem MemberAnnotations.encode_ne_error {member notes : Section} {l : Layout}
    {x : MemberAnnotations member notes} (hx : ∀ r ∈ x.annotations, l.Assigned _ r) {e : Error} :
    x.encode l ≠ .error e := by
  simp only [encode, ne_eq, Except.bind_eq_error_iff, Except.pure_ne_error, and_false, exists_false,
    or_false]
  exact Layout.offsetOrZero_ne_error hx e

/-! ## Values -/

namespace Value

theorem not_lacksOffset_of_encodeCount {n : Nat} {e : Error} (h : encodeCount n = .error e) :
    ¬ e.LacksOffset := by
  simp only [encodeCount, Except.bind_eq_error_iff, Except.pure_ne_error, and_false, exists_false,
    or_false] at h
  exact not_lacksOffset_of_toWord h

mutual

theorem not_lacksOffset_of_encode {e : Error} :
    (v : Value) → v.encode = .error e → ¬ e.LacksOffset
  | .array values, h => by
    simp only [encode, Except.bind_eq_error_iff, Except.pure_ne_error, and_false, exists_false,
      or_false] at h
    rcases h with h | ⟨_, -, h⟩
    · exact not_lacksOffset_of_encodeCount h
    · exact not_lacksOffset_of_encodeEach values h
  | .annotated _ elements, h => by
    simp only [encode, Except.bind_eq_error_iff, Except.pure_ne_error, and_false, exists_false,
      or_false] at h
    rcases h with h | ⟨_, -, h⟩
    · exact not_lacksOffset_of_encodeCount h
    · exact not_lacksOffset_of_encodeElements elements h
  | .byte _, h | .short _, h | .char _, h | .int _, h | .long _, h | .float _, h | .double _, h
  | .methodType _, h | .methodHandle _, h | .string _, h | .type _, h | .field _, h
  | .method _, h | .enum _, h | .null, h | .boolean _, h => by
    simp [encode] at h

theorem not_lacksOffset_of_encodeEach {e : Error} :
    (values : List Value) → encodeEach values = .error e → ¬ e.LacksOffset
  | [], h => by simp [encodeEach] at h
  | v :: rest, h => by
    simp only [encodeEach, Except.bind_eq_error_iff, Except.pure_ne_error, and_false, exists_false,
      or_false] at h
    rcases h with h | ⟨_, -, h⟩
    · exact not_lacksOffset_of_encode v h
    · exact not_lacksOffset_of_encodeEach rest h

theorem not_lacksOffset_of_encodeElements {e : Error} :
    (elements : List (Ref .stringId × Value)) → encodeElements elements = .error e →
      ¬ e.LacksOffset
  | [], h => by simp [encodeElements] at h
  | (_, v) :: rest, h => by
    simp only [encodeElements, Except.bind_eq_error_iff, Except.pure_ne_error, and_false,
      exists_false, or_false] at h
    rcases h with h | ⟨_, -, h⟩
    · exact not_lacksOffset_of_encode v h
    · exact not_lacksOffset_of_encodeElements rest h

end

end Value

/-! ## What holds of all sections -/

namespace Section

variable {l l' : Layout} {s : Section} {x : s.Content} {item : Stream}

theorem tight_of_encode (h : s.encode l x = .ok item) : item.Tight := by
  cases s with
  | stringData => cases h; exact Stream.tight_ofBytes _
  | debugInfo => cases h; exact Stream.tight_ofBytes _
  | codeItem =>
    obtain ⟨o, -, h⟩ := Except.bind_eq_ok_iff.mp h
    exact CodeItem.tight_of_encode h
  | _ =>
    obtain ⟨_, -, h⟩ := Except.bind_eq_ok_iff.mp h
    rw [Except.pure_eq_ok_iff] at h
    exact h ▸ Stream.tight_ofBytes _

theorem encode_mono (hl : l.Extends l') (h : s.encode l x = .ok item) :
    s.encode l' x = .ok item := by
  cases s with
  | stringData | typeId | typeList | fieldId | methodId | methodHandle | encodedArray
  | annotationItem | debugInfo => exact h
  | stringId | callSiteId =>
    simp only [encode, StringId.toRow, CallSiteId.toRow, Except.bind_eq_ok_iff] at h ⊢
    obtain ⟨row, ⟨o, ho, hrow⟩, h⟩ := h
    exact ⟨row, ⟨o, hl.offsetOf ho, hrow⟩, h⟩
  | protoId =>
    simp only [encode, ProtoId.toRow, Except.bind_eq_ok_iff] at h ⊢
    obtain ⟨row, ⟨o, ho, hrow⟩, h⟩ := h
    exact ⟨row, ⟨o, hl.offsetOrZero ho, hrow⟩, h⟩
  | classDef =>
    simp only [encode, ClassDef.toRow, Except.bind_eq_ok_iff] at h ⊢
    obtain ⟨row, ⟨o₁, h₁, o₂, h₂, o₃, h₃, o₄, h₄, hrow⟩, h⟩ := h
    exact ⟨row, ⟨o₁, hl.offsetOrZero h₁, o₂, hl.offsetOrZero h₂, o₃, hl.offsetOrZero h₃, o₄,
      hl.offsetOrZero h₄, hrow⟩, h⟩
  | annotationSet | annotationSetRefList =>
    simp only [encode, AnnotationSet.encode, AnnotationSetRefList.encode, Except.bind_eq_ok_iff,
      encodeList_eq_ok_iff] at h ⊢
    obtain ⟨out, ⟨hsize, tail, htail, hout⟩, h⟩ := h
    refine ⟨out, ⟨hsize, tail, Bytes.pieces_congr htail fun r _ part hr => ?_, hout⟩, h⟩
    simp only [Except.bind_eq_ok_iff] at hr ⊢
    obtain ⟨o, ho, hpart⟩ := hr
    first
      | exact ⟨o, hl.offsetOf ho, hpart⟩
      | exact ⟨o, hl.offsetOrZero ho, hpart⟩
  | annotationsDirectory =>
    simp only [encode, Except.bind_eq_ok_iff, AnnotationsDirectory.encode_eq_ok_iff] at h ⊢
    obtain ⟨out, ⟨hf, hm, hp, o, t₁, t₂, t₃, ho, h₁, h₂, h₃, hout⟩, h⟩ := h
    exact ⟨out, ⟨hf, hm, hp, o, t₁, t₂, t₃, hl.offsetOrZero ho,
      Bytes.pieces_congr h₁ fun _ _ _ => MemberAnnotations.encode_mono hl,
      Bytes.pieces_congr h₂ fun _ _ _ => MemberAnnotations.encode_mono hl,
      Bytes.pieces_congr h₃ fun _ _ _ => MemberAnnotations.encode_mono hl, hout⟩, h⟩
  | codeItem =>
    simp only [encode, Except.bind_eq_ok_iff] at h ⊢
    obtain ⟨o, ho, h⟩ := h
    exact ⟨o, hl.offsetOrZero ho, h⟩
  | classData =>
    simp only [encode, Except.bind_eq_ok_iff] at h ⊢
    obtain ⟨out, hout, h⟩ := h
    exact ⟨out, ClassData.encode_mono hl hout, h⟩

/-- The image of an entry of a table is a row of the table. -/
theorem length_of_encode_row {n : Nat} (hs : s.rowSize? = some n) (h : s.encode l x = .ok item) :
    item.length = n := by
  cases s with
  | stringId | typeId | protoId | fieldId | methodId | classDef | callSiteId | methodHandle =>
    obtain rfl := Option.some.inj hs
    obtain ⟨row, -, h⟩ := Except.bind_eq_ok_iff.mp h
    rw [Except.pure_eq_ok_iff] at h
    rw [h, Stream.length_ofBytes]
    simp [Row.encode, Row.fields]
  | _ => cases hs

theorem length_pos_of_encode (hx : s.TakesSpace x)
    (h : s.encode l x = .ok item) : 0 < item.length := by
  cases s with
  | debugInfo =>
    cases h
    rw [Stream.length_ofBytes]
    exact hx
  | stringData =>
    cases h
    simp [StringData.encode]
  | stringId | typeId | protoId | fieldId | methodId | classDef | callSiteId | methodHandle =>
    rw [length_of_encode_row rfl h]
    decide
  | codeItem =>
    obtain ⟨o, -, h⟩ := Except.bind_eq_ok_iff.mp h
    have := CodeItem.le_length_of_encode h
    omega
  | typeList | annotationSet | annotationSetRefList =>
    obtain ⟨out, hout, h⟩ := Except.bind_eq_ok_iff.mp h
    obtain ⟨-, tail, -, hlist⟩ := encodeList_eq_ok_iff.mp hout
    rw [Except.pure_eq_ok_iff] at h
    rw [h, Stream.length_ofBytes, ← Array.length_toList, hlist]
    simp
  | annotationsDirectory =>
    obtain ⟨out, hout, h⟩ := Except.bind_eq_ok_iff.mp h
    obtain ⟨-, -, -, o, t₁, t₂, t₃, -, -, -, -, hlist⟩ :=
      AnnotationsDirectory.encode_eq_ok_iff.mp hout
    rw [Except.pure_eq_ok_iff] at h
    rw [h, Stream.length_ofBytes, ← Array.length_toList, hlist]
    simp [AnnotationsDirectory.headBytes]
  | classData =>
    obtain ⟨out, hout, h⟩ := Except.bind_eq_ok_iff.mp h
    obtain ⟨-, t₁, t₂, t₃, t₄, -, -, -, -, hlist⟩ := ClassData.encode_eq_ok_iff.mp hout
    rw [Except.pure_eq_ok_iff] at h
    rw [h, Stream.length_ofBytes, ← Array.length_toList, hlist]
    have := Leb128.encodeUnsigned_size_pos x.staticFields.size.toUInt32
    simp only [ClassData.counts, List.length_append, Array.length_toList]
    omega
  | encodedArray =>
    obtain ⟨out, hout, h⟩ := Except.bind_eq_ok_iff.mp h
    simp only [Value.encodeArray, Value.encodeCount, Except.bind_eq_ok_iff,
      Except.pure_eq_ok_iff] at hout h
    obtain ⟨_, ⟨v, -, rfl⟩, body, -, rfl⟩ := hout
    have := Leb128.encodeUnsigned_size_pos v
    rw [h, Stream.length_ofBytes]
    simp
    omega
  | annotationItem =>
    obtain ⟨out, -, h⟩ := Except.bind_eq_ok_iff.mp h
    rw [Except.pure_eq_ok_iff] at h
    rw [h, Stream.length_ofBytes]
    simp

/-- The image of an entity lacks an offset only if one of its references does. -/
theorem not_lacksOffset_of_encode (hx : s.AllOffsets l.Assigned x) {e : Error}
    (h : s.encode l x = .error e) : ¬ e.LacksOffset := by
  intro he
  cases s with
  | stringData => cases h
  | debugInfo => cases h
  | typeId => cases h
  | stringId | callSiteId =>
    simp only [encode, StringId.toRow, CallSiteId.toRow, Except.bind_eq_error_iff,
      Except.pure_ne_error, and_false, exists_false, or_false] at h
    exact Layout.offsetOf_ne_error hx e h
  | typeList =>
    simp only [encode, Except.bind_eq_error_iff, Except.pure_ne_error, and_false, exists_false,
      or_false] at h
    obtain ⟨r, -, hr⟩ := encodeList_eq_error h he
    simp only [Except.bind_eq_error_iff, Except.pure_ne_error, and_false, exists_false,
      or_false] at hr
    exact not_lacksOffset_of_toHalfWord hr he
  | protoId =>
    simp only [encode, ProtoId.toRow, Except.bind_eq_error_iff, Except.pure_ne_error, and_false,
      exists_false, or_false] at h
    exact Layout.offsetOrZero_ne_error hx e h
  | fieldId | methodId =>
    simp only [encode, FieldId.toRow, MethodId.toRow, Except.bind_eq_error_iff,
      Except.pure_ne_error, and_false, exists_false, or_false] at h
    rcases h with h | ⟨_, -, h⟩
    · exact not_lacksOffset_of_toHalfWord h he
    · exact not_lacksOffset_of_toHalfWord h he
  | methodHandle =>
    simp only [encode, MethodHandle.toRow, Except.bind_eq_error_iff, Except.pure_ne_error,
      and_false, exists_false, or_false] at h
    exact not_lacksOffset_of_toHalfWord h he
  | classDef =>
    simp only [encode, ClassDef.toRow, Except.bind_eq_error_iff, Except.pure_ne_error, and_false,
      exists_false, or_false] at h
    obtain ⟨h₁, h₂, h₃, h₄⟩ := hx
    rcases h with h | ⟨_, -, h | ⟨_, -, h | ⟨_, -, h⟩⟩⟩
    · exact Layout.offsetOrZero_ne_error h₁ e h
    · exact Layout.offsetOrZero_ne_error h₂ e h
    · exact Layout.offsetOrZero_ne_error h₃ e h
    · exact Layout.offsetOrZero_ne_error h₄ e h
  | encodedArray =>
    simp only [encode, Value.encodeArray, Except.bind_eq_error_iff, Except.pure_ne_error,
      and_false, exists_false, or_false] at h
    rcases h with h | ⟨_, -, h⟩
    · exact Value.not_lacksOffset_of_encodeCount h he
    · exact Value.not_lacksOffset_of_encodeEach _ h he
  | annotationItem =>
    simp only [encode, Annotation.encode, Except.bind_eq_error_iff, Except.pure_ne_error,
      and_false, exists_false, or_false] at h
    rcases h with h | ⟨_, -, h⟩
    · exact Value.not_lacksOffset_of_encodeCount h he
    · exact Value.not_lacksOffset_of_encodeElements _ h he
  | annotationSet | annotationSetRefList =>
    simp only [encode, Except.bind_eq_error_iff, Except.pure_ne_error, and_false, exists_false,
      or_false] at h
    obtain ⟨r, hr, hfr⟩ := encodeList_eq_error h he
    simp only [Except.bind_eq_error_iff, Except.pure_ne_error, and_false, exists_false,
      or_false] at hfr
    first
      | exact Layout.offsetOf_ne_error (hx r hr) e hfr
      | exact Layout.offsetOrZero_ne_error (hx r hr) e hfr
  | annotationsDirectory =>
    simp only [encode, Except.bind_eq_error_iff, Except.pure_ne_error, and_false, exists_false,
      or_false] at h
    rcases AnnotationsDirectory.encode_eq_error h he with h | ⟨y, hy, h⟩ | ⟨y, hy, h⟩ | ⟨y, hy, h⟩
    · exact Layout.offsetOrZero_ne_error hx.1 e h
    · exact MemberAnnotations.encode_ne_error (hx.2.1 y hy) h
    · exact MemberAnnotations.encode_ne_error (hx.2.2.1 y hy) h
    · exact MemberAnnotations.encode_ne_error (hx.2.2.2 y hy) h
  | codeItem =>
    simp only [encode, Except.bind_eq_error_iff] at h
    rcases h with h | ⟨o, -, h⟩
    · exact Layout.offsetOrZero_ne_error hx e h
    · exact CodeItem.not_lacksOffset_of_encode h he
  | classData =>
    simp only [encode, Except.bind_eq_error_iff, Except.pure_ne_error, and_false, exists_false,
      or_false] at h
    refine ClassData.not_lacksOffset_of_encode (fun m hm e => ?_) h he
    exact Layout.offsetOrZero_ne_error (hx m hm) e

end Section

end DexGraph
