import DexGraph.Proofs.Assembly.Rewriting
import DexGraph.Proofs.Codec.ValueSize
import DexGraph.Proofs.Writing.Resized

/-!
# The ranges of arrays and annotations

A file that was read with its offsets has the range in which each of its items lies. Values are
stored again in no more bytes than those from which they were read, so an array or an annotation
that has not been changed stays in its range when the file is written back, whatever else has been
changed: `Dex.ofImage_values_confined`.
-/

namespace DexGraph

/-- The item lies at the offset of its place, and its form is not longer than its size. No write
that keeps offsets gives it another offset or a greater size, as long as neither the item nor its
place has been changed. -/
structure Dex.Confined (d : Dex) {s : Section} (r : Ref s) (o : UInt32) : Prop where
  offset : (d.layout.place r).offset = some o
  form : ∀ x, d.graph.get? r = some x → ∃ item, (∀ l, s.encode l x = .ok item) ∧
    item.length ≤ (d.layout.place r).size.toNat
  rewritten : ∀ (d' : Dex) (options : WriteOptions), options.computeOffsets = false →
    d'.graph.get? r = d.graph.get? r → d'.layout.place r = d.layout.place r →
      ((d'.write options).2.layout.place r).offset = some o ∧
        ((d'.write options).2.layout.place r).size ≤ (d.layout.place r).size

namespace Dex

variable {d : Dex} {s : Section} {r : Ref s}

/-- An item is confined if its form is the same under every layout and fits its range. -/
theorem confined_of_form {o : UInt32} {x : s.Content} (bytes : Bytes)
    (ho : (d.layout.place r).offset = some o) (hx : d.graph.get? r = some x)
    (hform : ∀ l, s.encode l x = .ok (.ofBytes bytes))
    (hle : bytes.size ≤ (d.layout.place r).size.toNat) : d.Confined r o where
  offset := ho
  form y hy := by
    cases hx.symm.trans hy
    exact ⟨_, hform, by rwa [Stream.length_ofBytes]⟩
  rewritten d' options hkeep hsame hplace := by
    have hoffset := ((d'.write_frame.1 options).2.2.2 hkeep).place s r
    refine ⟨hoffset.trans (hplace ▸ ho), ?_⟩
    rcases d'.graph.resized_write hkeep d'.layout s r with hsize | ⟨y, l, item, hy, hitem, hsize⟩
    · exact UInt32.le_of_eq (hsize.trans (congrArg Place.size hplace))
    · cases hx.symm.trans (hsame.symm.trans hy)
      cases (hform l).symm.trans hitem
      rw [Stream.position_ofBytes] at hsize
      rw [UInt32.le_iff_toNat_le]
      exact hsize.trans_le hle

end Dex

namespace Assembly.Built

variable {source : Source} {mark : Mark} {rows : Section → Nat} {a : Assembly}

/-- If offsets are kept, an array lies where it was read from. -/
theorem reads_array (h : a.Built source mark rows) (hkeeps : source.options.keepOffsets = true)
    {r : Ref .encodedArray} {x : EncodedArray} (hx : a.graph.get? r = some x) :
    ∃ o q : _, (a.layout.place r).offset = some o ∧
      (a.layout.place r).size.toNat = q - o.toNat ∧
      (Value.decodeArray a.graph).Reads source.data o.toNat x.values q := by
  obtain ⟨o, met, q, -, hreads, hsize, ho⟩ := h.valid.placed .encodedArray r x rfl hx
  refine ⟨o, q, ho hkeeps, hsize, ?_⟩
  obtain ⟨values, _, _, _, hvalues, hpure, -⟩ := Survey.reads_bind_iff.mp (hreads _ (.refl _))
  obtain ⟨hitem, -, rfl⟩ := Survey.reads_pure_iff.mp hpure
  obtain rfl : x = ⟨values⟩ := hitem
  exact (Survey.reads_decodeWith_iff.mp hvalues).1

/-- If offsets are kept, an annotation lies behind a byte with its visibility, and both where they
were read from. -/
theorem reads_annotation (h : a.Built source mark rows)
    (hkeeps : source.options.keepOffsets = true) {r : Ref .annotationItem} {x : AnnotationItem}
    (hx : a.graph.get? r = some x) :
    ∃ o q : _, (a.layout.place r).offset = some o ∧
      (a.layout.place r).size.toNat = q - o.toNat ∧
      ( Annotation.decode a.graph).Reads source.data (o.toNat + 1) x.body q := by
  obtain ⟨o, met, q, -, hreads, hsize, ho⟩ := h.valid.placed .annotationItem r x rfl hx
  refine ⟨o, q, ho hkeeps, hsize, ?_⟩
  obtain ⟨code, _, _, _, hcode, hrest, -⟩ := Survey.reads_bind_iff.mp (hreads _ (.refl _))
  obtain ⟨-, rfl⟩ := Decoder.reads_byte_iff.mp (Survey.reads_decode_iff.mp hcode).1
  cases hvisibility : Visibility.ofCode? code with
  | none =>
    rw [hvisibility] at hrest
    exact absurd (Survey.reads_decode_iff.mp hrest).1 Decoder.not_reads_fail
  | some visibility =>
    rw [hvisibility] at hrest
    obtain ⟨body, _, _, _, hbody, hpure, -⟩ := Survey.reads_bind_iff.mp hrest
    obtain ⟨hitem, -, rfl⟩ := Survey.reads_pure_iff.mp hpure
    obtain rfl : x = ⟨visibility, body⟩ := hitem
    exact (Survey.reads_decodeWith_iff.mp hbody).1

end Assembly.Built

namespace Dex

/-- Values, arrays and annotations are stored again, and read again, in no more bytes than those
from which they were read, whatever these are. So whatever the image from which a file was read
with its offsets, an array lies in the range from which it was read, and so does an annotation behind
its visibility, and writing it back does not take it out of there. -/
theorem ofImage_values_confined :
    (∀ g : Graph, (Value.decode g).Compacts Value.encode ∧
      (Value.decodeArray g).Compacts Value.encodeArray ∧
      ( Annotation.decode g).Compacts Annotation.encode) ∧
    ∀ (options : BuildOptions) (image : Image) (d : Dex), ofImage options image = .ok d →
      options.keepOffsets = true →
        (∀ (r : Ref .encodedArray) (x : EncodedArray), d.graph.get? r = some x →
          ∃ o, d.Confined r o ∧ (Value.decodeArray d.graph).Reads image.data o.toNat x.values
            (o.toNat + (d.layout.place r).size.toNat)) ∧
        ∀ (r : Ref .annotationItem) (x : AnnotationItem), d.graph.get? r = some x →
          ∃ o, d.Confined r o ∧ ( Annotation.decode d.graph).Reads image.data (o.toNat + 1) x.body
            (o.toNat + (d.layout.place r).size.toNat) := by
  refine ⟨fun g => ⟨Value.decode_compacts, Value.decodeArray_compacts,
    Annotation.decode_compacts⟩, fun options image d h hkeeps => ?_⟩
  rcases ofImage_outcome options image with
    ⟨e, he, -⟩ | ⟨map, -, ⟨e, he, -⟩ | ⟨a, classes, ha, hcomplete⟩⟩
  · cases he.symm.trans h
  · cases he.symm.trans h
  cases ha.symm.trans h
  refine ⟨fun r x hx => ?_, fun r x hx => ?_⟩
  · obtain ⟨o, q, ho, hsize, hreads⟩ := hcomplete.built.reads_array hkeeps hx
    obtain ⟨part, hpart, hle, -⟩ := Value.decodeArray_compacts _ _ _ _ hreads
    refine ⟨o, confined_of_form part.toArray ho hx (fun l => ?_) ?_, ?_⟩
    · rw [Section.encode, hpart]
      rfl
    · rw [List.size_toArray, hsize]
      omega
    · rwa [hsize, Nat.add_sub_cancel' (by omega)]
  · obtain ⟨o, q, ho, hsize, hreads⟩ := hcomplete.built.reads_annotation hkeeps hx
    obtain ⟨part, hpart, hle, -⟩ := Annotation.decode_compacts _ _ _ _ hreads
    refine ⟨o, confined_of_form (x.visibility.code :: part).toArray ho hx
      (fun l => ?_) ?_, ?_⟩
    · rw [Section.encode, hpart]
      rfl
    · rw [List.size_toArray, List.length_cons, hsize]
      omega
    · rwa [hsize, Nat.add_sub_cancel' (by omega)]

/-- A graph with one class whose static field has a value of two bytes. -/
def wideValue : Graph :=
  { twoFields with
    encodedArrays := .ofItems [⟨[.int 0x100]⟩]
    classDatas := .ofItems [⟨none, #[⟨⟨9⟩, ⟨0⟩, none⟩], #[], #[], #[]⟩]
    classDefs := .ofItems [⟨⟨0⟩, ⟨1⟩, none, none, none, none, some ⟨0⟩, some ⟨0⟩⟩] }

/-- The image of a wide value is read when the value is made small without being made narrow. The
array that is read takes up a byte less than it did. -/
theorem ofImage_values_confined_wideValue : ∃ image d, ofImage .preserving image = .ok d ∧
    ∃ x, d.graph.get? (s := .encodedArray) ⟨0⟩ = some x ∧
      Value.encodeArray x.values = .ok [1, 4, 5] ∧
      (d.layout.place (s := .encodedArray) ⟨0⟩).size = 4 ∧
      ∃ o, d.Confined (s := .encodedArray) ⟨0⟩ o ∧
        (Value.decodeArray d.graph).Reads image.data o.toNat x.values (o.toNat + 4) := by
  have hread : (((wideValue.write .relayout .empty).1.toOption.bind fun bytes =>
      ((Image.load (bytes.overlay 186 #[5, 0])).bind (ofImage .preserving)).toOption).bind fun d =>
        (d.graph.get? (s := .encodedArray) ⟨0⟩).map fun x =>
          (Value.encodeArray x.values, (d.layout.place (s := .encodedArray) ⟨0⟩).size)) =
      some (.ok [1, 4, 5], 4) := by
    unfold ofImage
    simp only [Graph.write, Writer.writeImage, Writer.closeImage, Writer.stampHeader,
      FileHeader.store, Stream.contents, Bytes.overlay_eq_laid, Image.data_eq_take,
      Writer.writeMapList, mapListOf, MapEntry.mergeSort_le]
    decide +kernel
  obtain ⟨d, hread, hx⟩ := Option.bind_eq_some_iff.mp hread
  obtain ⟨bytes, -, hread⟩ := Option.bind_eq_some_iff.mp hread
  obtain ⟨x, hx, hform⟩ := Option.map_eq_some_iff.mp hx
  obtain ⟨hform, hsize⟩ := Prod.mk.inj hform
  obtain ⟨image, himage⟩ := exists_ofImage_of_load hread
  obtain ⟨o, hconfined, hreads⟩ :=
    (ofImage_values_confined.2 .preserving image d himage rfl).1 ⟨0⟩ x hx
  rw [hsize] at hreads
  exact ⟨image, d, himage, x, hx, hform, hsize, o, hconfined, hreads⟩

end Dex

end DexGraph
