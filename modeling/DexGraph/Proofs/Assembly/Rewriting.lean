import DexGraph.Proofs.Assembly.Integrity
import DexGraph.Proofs.Writing.Refusals

/-!
# Writing what has been read

A graph that is read from an image is laid out anew unless the output outgrows what an offset can
say, or the image has class data that repeats an index or a body with a handler inside the number
of handlers: `Dex.ofImage_write_relayout`. These two are read without complaint, so that not every
image that is read can be written (`Dex.write_repeatedField`).
-/

namespace DexGraph

theorem ClassData.indexLists_bare (c : ClassData) : c.bare.indexLists = c.indexLists := by
  simp [indexLists, bare, Function.comp_def]

/-- The notes about where members belong are not written. -/
theorem ClassData.encode_bare (l : Layout) (c : ClassData) : c.bare.encode l = c.encode l := by
  simp only [encode, ← Array.foldlM_toList]
  simp only [bare, Array.toList_map, List.foldlM_map, Array.size_map]
  rfl

theorem Section.encode_bare (l : Layout) {s : Section} (x : s.Content) :
    s.encode l (s.bare x) = s.encode l x := by
  by_cases hs : s = .classData
  · subst hs
    exact congrArg (· >>= _) (ClassData.encode_bare l x)
  · rw [bare_of_ne hs]

theorem Section.storable_of_bare {s : Section} {x : s.Content} (h : s.Storable (s.bare x)) :
    s.Storable x := by
  by_cases hs : s = .classData
  · subst hs
    intro l e he
    rcases h l e ((encode_bare l x).trans he) with hlacks | ⟨i, ⟨indices, hmem, hinfix⟩, he⟩
    · exact .inl hlacks
    · exact .inr ⟨i, ⟨indices, x.indexLists_bare ▸ hmem, hinfix⟩, he⟩
  · rwa [Section.bare_of_ne hs] at h

namespace Assembly.Built

variable {source : Source} {mark : Mark} {rows : Section → Nat} {a : Assembly}

/-- Nothing but an offset or a defect keeps an entity that has been read from being written. -/
theorem storable (h : a.Built source mark rows) : a.graph.Storable := by
  intro s r x hx
  obtain ⟨p, -, met, q, hreads, -⟩ := h.valid.shown s r x hx
  exact Section.storable_of_bare (Section.survey_ensures_storable s _ _ _ _ (hreads _ (.refl _)))

/-- Every body is what stands at its offset in the image. -/
theorem reads_body (h : a.Built source mark rows) {r : Ref .codeItem} {code : CodeItem}
    (hcode : a.graph.get? r = some code) :
    ∃ (offset : UInt32) (q : Nat), (a.view source.data).find? .codeItem offset = some r ∧
      (CodeItem.decode a.graph code.debugInfo).Reads source.data offset.toNat code q := by
  obtain ⟨_, ⟨offset, hfind, rfl⟩, met, q, hreads, -⟩ := h.valid.shown .codeItem r code hcode
  obtain ⟨header, _, p₁, _, hheader, hrest, -⟩ := Survey.reads_bind_iff.mp (hreads _ (.refl _))
  obtain ⟨debugInfo, _, p₂, _, hdebug, hafter, -⟩ := Survey.reads_bind_iff.mp hrest
  obtain ⟨-, -, -, rfl⟩ := Survey.reads_item?_iff.mp hdebug
  have hafter := (Survey.reads_decodeWith_iff.mp hafter).1
  have hinfo : code.debugInfo = debugInfo := (CodeItem.decodeAfter_ensures _ _ _ _ hafter).1
  exact ⟨offset, q, hfind, (Survey.reads_decode_iff.mp hheader).1.bind (hinfo ▸ hafter)⟩

end Assembly.Built

namespace Dex

variable {options : BuildOptions} {image : Image} {d : Dex}

/-- Every body of a graph that is read from an image is what stands at some offset of it. -/
theorem ofImage_reads_body (h : ofImage options image = .ok d) {r : Ref .codeItem} {code : CodeItem}
    (hcode : d.graph.get? r = some code) :
    ∃ p q, (CodeItem.decode d.graph code.debugInfo).Reads image.data p code q := by
  obtain ⟨map, a, classes, rfl, hcomplete⟩ := complete_of_ofImage h
  obtain ⟨offset, q, -, hreads⟩ := hcomplete.built.reads_body hcode
  exact ⟨offset.toNat, q, hreads⟩

/-- Whatever the image and the options, a graph that is read is laid out anew, and then no entity
that is written has a defect; or an entity that is to be written has one, and it is refused for it;
or the output outgrows what an offset can say. -/
theorem ofImage_write_relayout (h : ofImage options image = .ok d) :
    (∃ bytes d', d.write .relayout = (.ok bytes, d') ∧ ∀ e, ¬ d.graph.Bars e) ∨
      ∃ e d', d.write .relayout = (.error e, d') ∧ (d.graph.Bars e ∨
        e = .malformed .exceedsWord ∧ d.graph.Outgrows d.layout) := by
  rcases ofImage_outcome options image with
    ⟨e, he, -⟩ | ⟨map, -, ⟨e, he, -⟩ | ⟨a, classes, ha, hcomplete⟩⟩
  · cases he.symm.trans h
  · cases he.symm.trans h
  cases ha.symm.trans h
  have hbuilt := hcomplete.built
  rcases Graph.write_relayout_outcome hbuilt.intact.sound hbuilt.storable a.layout with
    ⟨bytes, l, hwrite, hbars⟩ | ⟨e, l, hwrite, he⟩
  · exact .inl ⟨bytes, ⟨a.graph, l, {}⟩, by simp [write, hwrite], hbars⟩
  · exact .inr ⟨e, ⟨a.graph, l, {}⟩, by simp [write, hwrite], he⟩

/-- A graph with one class that has two static fields. -/
def twoFields : Graph :=
  { Graph.empty with
    stringDatas := .ofItems [⟨3, #[0x4C, 0x41, 0x3B]⟩, ⟨1, #[0x56]⟩, ⟨1, #[0x66]⟩]
    stringIds := .ofItems [⟨⟨0⟩⟩, ⟨⟨1⟩⟩, ⟨⟨2⟩⟩]
    typeIds := .ofItems [⟨⟨0⟩⟩, ⟨⟨1⟩⟩]
    fieldIds := .ofItems [⟨⟨0⟩, ⟨0⟩, ⟨2⟩⟩, ⟨⟨0⟩, ⟨1⟩, ⟨2⟩⟩]
    classDatas := .ofItems [⟨none, #[⟨⟨9⟩, ⟨0⟩, none⟩, ⟨⟨9⟩, ⟨1⟩, none⟩], #[], #[], #[]⟩]
    classDefs := .ofItems [⟨⟨0⟩, ⟨1⟩, none, none, none, none, some ⟨0⟩, none⟩] }

/-- The graph that is read from bytes. -/
def read? (bytes : Bytes) : Option Dex :=
  ((Image.load bytes).bind (ofImage .relayout)).toOption

theorem exists_ofImage_of_load {options : BuildOptions} {bytes : Bytes} {d : Dex}
    (h : ((Image.load bytes).bind (ofImage options)).toOption = some d) :
    ∃ image, ofImage options image = .ok d := by
  obtain ⟨image, -, himage⟩ := Except.bind_eq_ok_iff.mp (Except.toOption_eq_some_iff.mp h)
  exact ⟨image, himage⟩

theorem exists_ofImage_of_read? {bytes : Bytes} {d : Dex} (h : read? bytes = some d) :
    ∃ image, ofImage .relayout image = .ok d :=
  exists_ofImage_of_load h

/-- The image of a graph with two fields is read, and the graph that is read is written. -/
theorem ofImage_write_relayout_twoFields : ∃ image d, ofImage .relayout image = .ok d ∧
    ((∃ bytes d', d.write .relayout = (.ok bytes, d') ∧ ∀ e, ¬ d.graph.Bars e) ∨
      ∃ e d', d.write .relayout = (.error e, d') ∧ (d.graph.Bars e ∨
        e = .malformed .exceedsWord ∧ d.graph.Outgrows d.layout)) := by
  have hread : ((twoFields.write .relayout .empty).1.toOption.bind read?).isSome = true := by
    unfold read? ofImage
    simp only [Graph.write, Writer.writeImage, Writer.closeImage, Writer.stampHeader,
      FileHeader.store, Stream.contents, Bytes.overlay_eq_laid, Image.data_eq_take,
      Writer.writeMapList, mapListOf, MapEntry.mergeSort_le]
    decide +kernel
  obtain ⟨d, hread⟩ := Option.isSome_iff_exists.mp hread
  obtain ⟨bytes, -, hread⟩ := Option.bind_eq_some_iff.mp hread
  obtain ⟨image, himage⟩ := exists_ofImage_of_read? hread
  exact ⟨image, d, himage, ofImage_write_relayout himage⟩

/-- The image of two fields is still read when the difference of their indices is made zero, but
the graph that is read cannot be written. -/
theorem write_repeatedField :
    ((twoFields.write .relayout .empty).1.toOption.bind fun bytes =>
      (read? (bytes.overlay 190 #[0])).map fun d => (d.write .relayout).1) =
    some (.error (.malformed (.membersOutOfOrder 0 0))) := by
  unfold read? ofImage
  simp only [Dex.write, Graph.write, Writer.writeImage, Writer.closeImage, Writer.stampHeader,
    FileHeader.store, Stream.contents, Bytes.overlay_eq_laid, Image.data_eq_take,
    Writer.writeMapList, mapListOf, MapEntry.mergeSort_le]
  decide +kernel

end Dex

end DexGraph
