import DexGraph.Proofs.Writing.Relayout

/-!
# The offsets that an image stores

An entity that refers to data items stores their offsets: in words at fixed distances from its
start, or, if it is class data, among the numbers of its methods. `Section.offsetFields` lists the
words and `ClassData.readBodyOffsets` finds the numbers. `Graph.write_relayout_offsets` says that a
graph is never refused for want of an offset when it is laid out anew, and that every offset in its
image is the one that its layout records.
-/

namespace DexGraph

/-- A word in which an entity stores the offset of a data item, if it refers to one. -/
structure OffsetField where
  /-- How far behind the start of the entity the word lies. -/
  position : Nat
  target : Section
  ref : Option (Ref target)

namespace OffsetField

/-- The words of references that are stored at equal distances. -/
def each {t : Section} (first stride : Nat) (refs : List (Option (Ref t))) : List OffsetField :=
  refs.zipIdx.map fun (r, i) => ⟨first + i * stride, t, r⟩

theorem mem_each {t : Section} {first stride : Nat} {refs : List (Option (Ref t))}
    {f : OffsetField} :
    f ∈ each first stride refs ↔ ∃ i r, refs[i]? = some r ∧ f = ⟨first + i * stride, t, r⟩ := by
  simp only [each, List.mem_map, Prod.exists, List.mk_mem_zipIdx_iff_getElem?]
  constructor
  · rintro ⟨r, i, hr, rfl⟩
    exact ⟨i, r, hr, rfl⟩
  · rintro ⟨i, r, hr, rfl⟩
    exact ⟨r, i, hr, rfl⟩

/-- The word holds what a layout gives for the reference. -/
def HoldsAt (f : OffsetField) (l : Layout) (data : Bytes) (start : Nat) : Prop :=
  ∃ v, l.offsetOrZero f.ref = .ok v ∧ data.HoldsAt (start + f.position) (Bytes.ofWord v).toList

end OffsetField

namespace MemberAnnotations

/-- The words of the entries of a directory of which the first entry starts at `first`. -/
def offsetFields {member notes : Section} (first : Nat)
    (entries : Array (MemberAnnotations member notes)) : List OffsetField :=
  OffsetField.each (first + 4) 8 (entries.toList.map (·.annotations))

end MemberAnnotations

/-- The words in which an entity stores offsets. -/
def Section.offsetFields : (s : Section) → s.Content → List OffsetField
  | .stringId, x => [⟨0, _, some x.data⟩]
  | .protoId, x => [⟨8, _, x.parameters⟩]
  | .classDef, x =>
    [⟨12, _, x.interfaces⟩, ⟨20, _, x.annotations⟩, ⟨24, _, x.classData⟩, ⟨28, _, x.staticValues⟩]
  | .callSiteId, x => [⟨0, _, some x.array⟩]
  | .annotationSet, x => OffsetField.each 4 4 (x.items.toList.map some)
  | .annotationSetRefList, x => OffsetField.each 4 4 x.items.toList
  | .annotationsDirectory, x =>
    ⟨0, _, x.classAnnotations⟩ :: MemberAnnotations.offsetFields 16 x.fields ++
      MemberAnnotations.offsetFields (16 + x.fields.size * 8) x.methods ++
      MemberAnnotations.offsetFields (16 + x.fields.size * 8 + x.methods.size * 8) x.parameters
  | .codeItem, x => [⟨8, _, x.debugInfo⟩]
  | _, _ => []

/-- Passes over a field of a list of members. -/
def FieldItem.skip : Decoder Unit := do
  discard Decoder.unsignedLeb
  discard Decoder.unsignedLeb

/-- Reads the offset of the body of a method of a list of members. -/
def MethodItem.readBodyOffset : Decoder UInt32 := do
  discard Decoder.unsignedLeb
  discard Decoder.unsignedLeb
  Decoder.unsignedLeb

/-- Reads the offsets of the bodies in class data, those of the direct methods first. -/
def ClassData.readBodyOffsets : Decoder (Array UInt32) := do
  let staticCount ← Decoder.unsignedLeb
  let instanceCount ← Decoder.unsignedLeb
  let directCount ← Decoder.unsignedLeb
  let virtualCount ← Decoder.unsignedLeb
  times (staticCount.toNat + instanceCount.toNat) FieldItem.skip
  gather (directCount.toNat + virtualCount.toNat) MethodItem.readBodyOffset

namespace Layout

/-- What a layout records for a reference that an image stores as an offset: the offset of the
entity, which is not zero, or zero for no reference. -/
def Records (l : Layout) {t : Section} (r : Option (Ref t)) (v : UInt32) : Prop :=
  match r with
  | some r => (l.place r).offset = some v ∧ v ≠ 0
  | none => v = 0

end Layout

/-! ## The words of an entity -/

section Words

variable {l : Layout} {data : Bytes} {p : Nat}

/-- The elements of a list in each of which the offset comes last. -/
private theorem holdsAt_each {α : Type} {t : Section} {ref : α → Option (Ref t)}
    {f : α → Except Error Bytes} (lead : Nat)
    (hf : ∀ x part, f x = .ok part → ∃ before v, before.length = lead ∧
      l.offsetOrZero (ref x) = .ok v ∧ part.toList = before ++ (Bytes.ofWord v).toList)
    {xs : List α} {out : List UInt8} (h : Bytes.pieces f xs = .ok out) {first : Nat}
    (hat : data.HoldsAt (p + first) out) :
    ∀ w ∈ OffsetField.each (first + lead) (lead + 4) (xs.map ref), w.HoldsAt l data p := by
  intro w hw
  obtain ⟨i, r, hr, rfl⟩ := OffsetField.mem_each.mp hw
  rw [List.getElem?_map, Option.map_eq_some_iff] at hr
  obtain ⟨x, hx, rfl⟩ := hr
  have hsize (x : α) (part : Bytes) (hpart : f x = .ok part) : part.size = lead + 4 := by
    obtain ⟨before, v, hlen, -, hlist⟩ := hf x part hpart
    rw [← Array.length_toList, hlist]
    simp [hlen]
  obtain ⟨part, hpart, hat⟩ := hat.piece h hsize hx
  obtain ⟨before, v, hlen, hv, hlist⟩ := hf x part hpart
  rw [hlist, Bytes.holdsAt_append, hlen] at hat
  refine ⟨v, hv, ?_⟩
  have hpos : p + (first + lead + i * (lead + 4)) = p + first + i * (lead + 4) + lead := by omega
  rw [hpos]
  exact hat.2

private theorem holdsAt_memberAnnotations {member notes : Section}
    {entries : Array (MemberAnnotations member notes)} {out : List UInt8}
    (h : Bytes.pieces (MemberAnnotations.encode l) entries.toList = .ok out) {first : Nat}
    (hat : data.HoldsAt (p + first) out) :
    ∀ w ∈ MemberAnnotations.offsetFields first entries, w.HoldsAt l data p := by
  refine holdsAt_each 4 (fun x part hpart => ?_) h hat
  obtain ⟨v, hv, rfl⟩ := MemberAnnotations.encode_eq_ok_iff.mp hpart
  exact ⟨(Bytes.ofWord x.owner.slot).toList, v, by simp, hv, by simp⟩

private theorem length_memberAnnotations {member notes : Section}
    {entries : Array (MemberAnnotations member notes)} {out : List UInt8}
    (h : Bytes.pieces (MemberAnnotations.encode l) entries.toList = .ok out) :
    out.length = entries.size * 8 := by
  rw [Bytes.length_pieces h (n := 8), Array.length_toList]
  intro x part hpart
  obtain ⟨v, -, rfl⟩ := MemberAnnotations.encode_eq_ok_iff.mp hpart
  simp

/-- An entity whose image is held has every offset in its word. -/
theorem Section.holdsAt_offsetFields {s : Section} {x : s.Content} {item : Stream}
    (h : s.encode l x = .ok item) (hat : data.HoldsAt p item.toBytes.toList) :
    ∀ f ∈ s.offsetFields x, f.HoldsAt l data p := by
  cases s with
  | stringId | callSiteId =>
    simp only [encode, StringId.toRow, CallSiteId.toRow, Except.bind_eq_ok_iff,
      Except.pure_eq_ok_iff] at h
    obtain ⟨_, ⟨v, hv, rfl⟩, rfl⟩ := h
    rw [Stream.toBytes_ofBytes] at hat
    simp only [Row.encode, Row.fields, List.foldl_cons, List.foldl_nil, Array.toList_append,
      Bytes.holdsAt_append, List.length_nil] at hat
    simp only [offsetFields, List.forall_mem_singleton]
    exact ⟨v, hv, hat.2⟩
  | protoId =>
    simp only [encode, ProtoId.toRow, Except.bind_eq_ok_iff, Except.pure_eq_ok_iff] at h
    obtain ⟨_, ⟨v, hv, rfl⟩, rfl⟩ := h
    rw [Stream.toBytes_ofBytes] at hat
    simp only [Row.encode, Row.fields, List.foldl_cons, List.foldl_nil, Array.toList_append,
      Bytes.holdsAt_append, List.length_append, Array.length_toList, Bytes.size_ofWord] at hat
    simp only [offsetFields, List.forall_mem_singleton]
    exact ⟨v, hv, hat.2⟩
  | classDef =>
    simp only [encode, ClassDef.toRow, Except.bind_eq_ok_iff, Except.pure_eq_ok_iff] at h
    obtain ⟨_, ⟨v₁, h₁, v₂, h₂, v₃, h₃, v₄, h₄, rfl⟩, rfl⟩ := h
    rw [Stream.toBytes_ofBytes] at hat
    simp only [Row.encode, Row.fields, List.foldl_cons, List.foldl_nil, Array.toList_append,
      Bytes.holdsAt_append, List.length_append, Array.length_toList, Bytes.size_ofWord] at hat
    obtain ⟨⟨⟨⟨⟨-, hat₁⟩, -⟩, hat₂⟩, hat₃⟩, hat₄⟩ := hat
    simp only [offsetFields, List.forall_mem_cons]
    exact ⟨⟨v₁, h₁, hat₁⟩, ⟨v₂, h₂, hat₂⟩, ⟨v₃, h₃, hat₃⟩, ⟨v₄, h₄, hat₄⟩, by simp⟩
  | annotationSet =>
    obtain ⟨out, hout, h⟩ := Except.bind_eq_ok_iff.mp h
    rw [Except.pure_eq_ok_iff] at h
    obtain ⟨-, tail, htail, hlist⟩ := encodeList_eq_ok_iff.mp hout
    rw [h, Stream.toBytes_ofBytes, hlist, Bytes.holdsAt_append] at hat
    refine holdsAt_each 0 (fun r part hpart => ?_) htail hat.2
    simp only [Except.bind_eq_ok_iff, Except.pure_eq_ok_iff] at hpart
    obtain ⟨v, hv, rfl⟩ := hpart
    exact ⟨[], v, rfl, hv, rfl⟩
  | annotationSetRefList =>
    obtain ⟨out, hout, h⟩ := Except.bind_eq_ok_iff.mp h
    rw [Except.pure_eq_ok_iff] at h
    obtain ⟨-, tail, htail, hlist⟩ := encodeList_eq_ok_iff.mp hout
    rw [h, Stream.toBytes_ofBytes, hlist, Bytes.holdsAt_append] at hat
    rw [offsetFields, ← List.map_id x.items.toList]
    refine holdsAt_each 0 (fun r part hpart => ?_) htail hat.2
    simp only [Except.bind_eq_ok_iff, Except.pure_eq_ok_iff] at hpart
    obtain ⟨v, hv, rfl⟩ := hpart
    exact ⟨[], v, rfl, hv, rfl⟩
  | annotationsDirectory =>
    obtain ⟨out, hout, h⟩ := Except.bind_eq_ok_iff.mp h
    rw [Except.pure_eq_ok_iff] at h
    obtain ⟨-, -, -, v, fields, methods, parameters, hv, h₁, h₂, h₃, hlist⟩ :=
      AnnotationsDirectory.encode_eq_ok_iff.mp hout
    rw [h, Stream.toBytes_ofBytes, hlist] at hat
    simp only [AnnotationsDirectory.headBytes, Bytes.holdsAt_append, List.length_append,
      Array.length_toList, Bytes.size_ofWord, length_memberAnnotations h₁,
      length_memberAnnotations h₂] at hat
    obtain ⟨⟨⟨⟨⟨⟨hhead, -⟩, -⟩, -⟩, hat₁⟩, hat₂⟩, hat₃⟩ := hat
    simp only [offsetFields, List.cons_append, List.forall_mem_cons, List.forall_mem_append]
    exact ⟨⟨v, hv, hhead⟩, ⟨holdsAt_memberAnnotations h₁ hat₁,
      holdsAt_memberAnnotations h₂ hat₂⟩, holdsAt_memberAnnotations h₃ hat₃⟩
  | codeItem =>
    obtain ⟨v, hv, h⟩ := Except.bind_eq_ok_iff.mp h
    have hhead := (CodeItem.holdsAt_of_encode h hat).1
    simp only [CodeHeader.encode, CodeItem.headerOf, Array.toList_append, Bytes.holdsAt_append,
      List.length_append, Array.length_toList, Bytes.size_ofHalfWord] at hhead
    simp only [offsetFields, List.forall_mem_singleton]
    exact ⟨v, hv, hhead.1.1.2⟩
  | _ => simp [offsetFields]

theorem Section.rowSize?_offsetFields {s : Section} {x : s.Content} :
    ∀ f ∈ s.offsetFields x, f.target.rowSize? = none := by
  have heach {t : Section} (ht : t.rowSize? = none) {first stride : Nat}
      {refs : List (Option (Ref t))} :
      ∀ f ∈ OffsetField.each first stride refs, f.target.rowSize? = none := by
    intro f hf
    obtain ⟨i, r, -, rfl⟩ := OffsetField.mem_each.mp hf
    exact ht
  cases s with
  | annotationSet | annotationSetRefList => exact heach rfl
  | annotationsDirectory =>
    simp only [offsetFields, List.cons_append, List.forall_mem_cons, List.forall_mem_append]
    exact ⟨rfl, ⟨heach rfl, heach rfl⟩, heach rfl⟩
  | _ => simp [offsetFields, rowSize?]

/-! ## The bodies of class data -/

private theorem reads_skip {x : FieldItem} {detail : Bytes} {delta : UInt32}
    (h : x.details = .ok detail)
    (hat : data.HoldsAt p ((Leb128.encodeUnsigned delta).toList ++ detail.toList)) :
    ∃ v, True ∧ FieldItem.skip.Reads data p v (p + (Leb128.encodeUnsigned delta).size + detail.size) := by
  cases h
  rw [Bytes.holdsAt_append, Array.length_toList] at hat
  exact ⟨(), trivial, (Decoder.reads_encodeUnsigned hat.1).discard.bind
    (Decoder.reads_encodeUnsigned hat.2).discard⟩

private theorem reads_readBodyOffset {x : MethodItem} {detail : Bytes} {delta : UInt32}
    (h : x.details l = .ok detail)
    (hat : data.HoldsAt p ((Leb128.encodeUnsigned delta).toList ++ detail.toList)) :
    ∃ v, l.offsetOrZero x.body? = .ok v ∧ MethodItem.readBodyOffset.Reads data p v
      (p + (Leb128.encodeUnsigned delta).size + detail.size) := by
  simp only [MethodItem.details, Except.bind_eq_ok_iff, Except.pure_eq_ok_iff] at h
  obtain ⟨v, hv, rfl⟩ := h
  simp only [Array.toList_append, Bytes.holdsAt_append, Array.length_toList] at hat
  obtain ⟨hdelta, hflags, hoffset⟩ := hat
  rw [Array.size_append, ← Nat.add_assoc]
  exact ⟨v, hv, (Decoder.reads_encodeUnsigned hdelta).discard.bind
    ((Decoder.reads_encodeUnsigned hflags).discard.bind (Decoder.reads_encodeUnsigned hoffset))⟩

/-- Class data that is held stores what a layout gives for the body of each method. -/
theorem ClassData.reads_readBodyOffsets {c : ClassData} {bytes : Bytes}
    (h : c.encode l = .ok bytes) (hat : data.HoldsAt p bytes.toList) :
    ∃ offsets, readBodyOffsets.Reads data p offsets (p + bytes.size) ∧
      List.Forall₂ (fun m v => l.offsetOrZero m.body? = .ok v) c.allMethods.toList
        offsets.toList := by
  obtain ⟨⟨hs, hi, hd, hv⟩, static, inst, direct, virtual, h₁, h₂, h₃, h₄, hlist⟩ :=
    encode_eq_ok_iff.mp h
  rw [hlist] at hat
  simp only [counts, Bytes.holdsAt_append, List.length_append, Array.length_toList,
    ← Nat.add_assoc] at hat
  obtain ⟨⟨⟨⟨⟨⟨⟨c₁, c₂⟩, c₃⟩, c₄⟩, hstatic⟩, hinst⟩, hdirect⟩, hvirtual⟩ := hat
  obtain ⟨us, hus, hskip⟩ := readsEach_memberBytes (fun x detail delta p => reads_skip) h₁ hstatic
  obtain ⟨us', hus', hskip'⟩ := readsEach_memberBytes (fun x detail delta p => reads_skip) h₂ hinst
  obtain ⟨vs, hvs, hread⟩ :=
    readsEach_memberBytes (fun x detail delta p => reads_readBodyOffset) h₃ hdirect
  obtain ⟨vs', hvs', hread'⟩ :=
    readsEach_memberBytes (fun x detail delta p => reads_readBodyOffset) h₄ hvirtual
  have hunits : us ++ us' = List.replicate (c.staticFields.size + c.instanceFields.size) () := by
    rw [List.eq_replicate_iff]
    exact ⟨by simp [← hus.length_eq, ← hus'.length_eq], fun _ _ => rfl⟩
  have hstop : p + bytes.size = p + (Leb128.encodeUnsigned c.staticFields.size.toUInt32).size +
      (Leb128.encodeUnsigned c.instanceFields.size.toUInt32).size +
      (Leb128.encodeUnsigned c.directMethods.size.toUInt32).size +
      (Leb128.encodeUnsigned c.virtualMethods.size.toUInt32).size + static.length + inst.length +
      direct.length + virtual.length := by
    rw [← Array.length_toList, hlist]
    simp only [counts, List.length_append, Array.length_toList]
    omega
  have htimes := (Decoder.reads_times_iff (u := ())).mpr
    (hunits ▸ Decoder.readsEach_append_iff.mpr ⟨_, hskip, hskip'⟩)
  have hsize : (vs ++ vs').toArray.size = c.directMethods.size + c.virtualMethods.size := by
    simp [← hvs.length_eq, ← hvs'.length_eq]
  have hgather := Decoder.reads_gather_iff.mpr
    ⟨hsize, Decoder.readsEach_append_iff.mpr ⟨_, hread, hread'⟩⟩
  refine ⟨(vs ++ vs').toArray, ?_, ?_⟩
  · refine (Decoder.reads_encodeUnsigned c₁).bind ((Decoder.reads_encodeUnsigned c₂).bind
      ((Decoder.reads_encodeUnsigned c₃).bind ((Decoder.reads_encodeUnsigned c₄).bind ?_)))
    rw [toNat_toUInt32 hs, toNat_toUInt32 hi, toNat_toUInt32 hd, toNat_toUInt32 hv, hstop]
    exact htimes.bind (a := ()) hgather
  · rw [allMethods, Array.toList_append]
    exact List.rel_append hvs hvs'

end Words

/-! ## The offsets of an image -/

/-- Every offset that an image stores for the entities of a graph is the one that the layout
records, and every entry of a table is in the image. -/
structure Graph.OffsetsStored (g : Graph) (l : Layout) (image : Bytes) : Prop where
  rows : ∀ s : Section, s.rowSize? ≠ none → ∀ r : Ref s, g.Has s r → l.Assigned s r
  words : ∀ (s : Section) (r : Ref s) (x : s.Content) (o : UInt32), g.get? r = some x →
    (l.place r).offset = some o → ∀ f ∈ s.offsetFields x, ∃ v,
      Decoder.word.runAt image (o.toNat + f.position) = .ok (v, o.toNat + f.position + 4) ∧
        l.Records f.ref v
  bodies : ∀ (r : Ref .classData) (x : ClassData) (o : UInt32), g.get? r = some x →
    (l.place r).offset = some o → ∃ offsets stop,
      ClassData.readBodyOffsets.runAt image o.toNat = .ok (offsets, stop) ∧
        List.Forall₂ (fun m v => l.Records m.body? v) x.allMethods.toList offsets.toList

namespace FreshImage

variable {g : Graph} {l : Layout} {image : Bytes} {blocks : List Block}

theorem records (h : FreshImage g l image blocks) {t : Section} (ht : t.rowSize? = none)
    {r : Option (Ref t)} {v : UInt32} (hv : l.offsetOrZero r = .ok v) : l.Records r v := by
  cases r with
  | none =>
    cases hv
    rfl
  | some r =>
    have ho := Layout.offsetOf_eq_ok_iff.mp hv
    exact ⟨ho, h.offset_ne_zero ht ho⟩

theorem offsetsStored (h : FreshImage g l image blocks) : g.OffsetsStored l image where
  rows _ hs _ hr := h.assigned_row hs hr
  words s r x o hx ho f hf := by
    obtain ⟨item, hitem, -, hat⟩ := h.heldAt s r x o hx ho
    obtain ⟨v, hv, hword⟩ := Section.holdsAt_offsetFields hitem hat f hf
    exact ⟨v, Decoder.reads_word_iff.mpr ⟨hword, rfl⟩,
      h.records (Section.rowSize?_offsetFields f hf) hv⟩
  bodies r x o hx ho := by
    obtain ⟨item, hitem, -, hat⟩ := h.heldAt .classData r x o hx ho
    obtain ⟨bytes, hbytes, hstream⟩ := Except.bind_eq_ok_iff.mp hitem
    rw [Except.pure_eq_ok_iff] at hstream
    rw [hstream, Stream.toBytes_ofBytes] at hat
    obtain ⟨offsets, hreads, hoffsets⟩ := ClassData.reads_readBodyOffsets hbytes hat
    exact ⟨offsets, _, hreads, hoffsets.imp fun _ _ hv => h.records rfl hv⟩

end FreshImage

namespace Graph

variable {g : Graph} {layout : Layout}

/-- A graph whose references are in range is never refused for want of an offset when it is laid
out anew, and its image stores for every reference the offset that the layout records, and zero
where there is none. -/
theorem write_relayout_offsets (hg : g.Sound) (layout : Layout) :
    (∀ e l, g.write .relayout layout = (.error e, l) → ¬ e.LacksOffset) ∧
      ∀ image l, g.write .relayout layout = (.ok image, l) → g.OffsetsStored l image := by
  refine ⟨fun e l h => write_relayout_error hg h, fun image l h => ?_⟩
  obtain ⟨blocks, himage⟩ := write_relayout hg h
  exact himage.offsetsStored

theorem write_oneMethod_offsets : oneMethod.Sound ∧ ∃ image l,
    oneMethod.write .relayout .empty = (.ok image, l) ∧ oneMethod.OffsetsStored l image := by
  obtain ⟨image, l, h⟩ := write_oneMethod
  exact ⟨oneMethod_sound, image, l, h, (write_relayout_offsets oneMethod_sound .empty).2 image l h⟩

end Graph

end DexGraph
