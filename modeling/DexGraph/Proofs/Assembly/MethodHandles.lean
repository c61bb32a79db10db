import DexGraph.Proofs.Assembly.Integrity
import DexGraph.Proofs.Writing.Relayout

/-!
# Method handles in values

The classes of an image are read before its method handles. A value that names a method handle is
therefore refused where a class leads to it, in an array of static values or in an annotation,
although the image may have the handle (`Dex.ofImage_staticHandle`). Nowhere else is a handle that
the image has ever found missing: `Dex.ofImage_methodHandles` says what a failure for want of a
handle means, and that a graph that is read has all handles of the image, none of them named in an
array of static values or in an annotation.
-/

namespace DexGraph

/-! ## What lasts -/

namespace Assembly

variable {source : Source} {a a' : Assembly} {s : Section}

/-- What the image shows of an entity does not change while more is found. -/
theorem Valid.bare_eq_of_within (h : a.Valid source) (h' : a'.Valid source)
    (hw : (a.view source.data).Within (a'.view source.data)) {r : Ref s} {x y : s.Content}
    (hx : a.graph.get? r = some x) (hy : a'.graph.get? r = some y) : s.bare y = s.bare x := by
  obtain ⟨p, hp, met, q, hreads, -⟩ := h.shown s r x hx
  obtain ⟨p', hp', met', q', hreads', -⟩ := h'.shown s r y hy
  have hplace : p = p' := h'.starts_unique (hp.mono hw) hp'
  subst hplace
  exact ((hreads _ hw).unique (hreads' _ (.refl _))).1.symm

/-- An entity that was there already names only what was there already. -/
theorem Built.allRefs_of_has {mark mark' : Mark} {rows rows' : Section → Nat}
    (h : a.Built source mark rows) (h' : a'.Built source mark' rows')
    (hw : (a.view source.data).Within (a'.view source.data)) (hs : s ≠ .classData) {r : Ref s}
    {y : s.Content} (hy : a'.graph.get? r = some y) (hr : a.graph.Has s r) :
    s.AllRefs (fun t r => a.graph.Has t r) y := by
  obtain ⟨x, hx⟩ := Graph.has_iff_exists.mp hr
  have hbare := h.valid.bare_eq_of_within h'.valid hw hx hy
  rw [Section.bare_of_ne hs, Section.bare_of_ne hs] at hbare
  exact hbare ▸ h.intact.sound.refs s r x hx

end Assembly

/-! ## Values without handles -/

/-- No method handle is named in the content of an entity. -/
def Section.HandleFree (s : Section) (x : s.Content) : Prop :=
  s.AllRefs (fun t _ => t ≠ .methodHandle) x

namespace Assembly.Complete

variable {source : Source} {classes a : Assembly} (h : a.Complete source classes)
include h

theorem handleFree_of_has {s : Section} (hs : s ≠ .classData) {r : Ref s} {y : s.Content}
    (hy : a.graph.get? r = some y) (hr : classes.graph.Has s r) : s.HandleFree y := by
  obtain ⟨mark, rows, hclasses, hnone, -⟩ := h.classes_built
  refine (hclasses.allRefs_of_has h.built h.built.since.within hs hy hr).mono fun t r hhas => ?_
  rintro rfl
  have hempty : classes.graph.count .methodHandle = 0 :=
    (hclasses.count _ (by decide)).trans hnone
  unfold Graph.Has at hhas
  omega

/-- Annotations are read with the classes. -/
theorem annotation_handleFree {r : Ref .annotationItem} {x : AnnotationItem}
    (hx : a.graph.get? r = some x) : Section.annotationItem.HandleFree x := by
  refine h.handleFree_of_has (by decide) hx ?_
  have hcount : a.graph.count .annotationItem = classes.graph.count .annotationItem :=
    h.built.since.count .annotationItem rfl (Nat.le_refl 11)
  have hhas := Graph.has_of_get? hx
  unfold Graph.Has at hhas ⊢
  omega

/-- The arrays of static values are read with the classes. -/
theorem staticValues_handleFree {r : Ref .classDef} {c : ClassDef} {array : Ref .encodedArray}
    {x : EncodedArray} (hc : a.graph.get? r = some c) (harray : array ∈ c.staticValues)
    (hx : a.graph.get? array = some x) : Section.encodedArray.HandleFree x := by
  obtain ⟨mark, rows, hclasses, -, hrows⟩ := h.classes_built
  have hr : classes.graph.Has .classDef r := by
    have hcount := hclasses.count .classDef (by decide)
    have hcount' := h.built.count .classDef (by decide)
    have hhas := Graph.has_of_get? hc
    unfold Graph.Has at hhas ⊢
    omega
  have hrefs := hclasses.allRefs_of_has h.built h.built.since.within (by decide) hc hr
  exact h.handleFree_of_has (by decide) hx (hrefs.2.2.2.2.2.2 array harray)

/-- What an array says is what is read with all method handles of the image. -/
theorem exists_reads_array {r : Ref .encodedArray} {x : EncodedArray}
    (hx : a.graph.get? r = some x) : ∃ (o : UInt32) (q : Nat),
      (Value.decodeArray a.graph).Reads source.data o.toNat x.values q := by
  obtain ⟨p, ⟨o, -, rfl⟩, met, q, hreads, -⟩ := h.built.valid.shown .encodedArray r x hx
  obtain ⟨values, first, q', rest, hvalues, hpure, -⟩ :=
    Survey.reads_bind_iff.mp (hreads _ (.refl _))
  obtain ⟨heq, -, -⟩ := Survey.reads_pure_iff.mp hpure
  have hvalues := (Survey.reads_decodeWith_iff.mp hvalues).1
  refine ⟨o, q', ?_⟩
  rw [show x.values = values from congrArg EncodedArray.values heq]
  exact hvalues

end Assembly.Complete

namespace Dex

/-- Whatever the image, a read that fails for want of a method handle has met its index before
the table of handles was read, or the image has no handle of that index; and a read that succeeds
gives all handles of the image. No annotation names one then and no array of static values, and
every array says what is read with all handles. -/
theorem ofImage_methodHandles (options : BuildOptions) (image : Image) :
    (∃ e, ofImage options image = .error e ∧
      ∀ i n, e = .missingReference .methodHandle i n → n ≤ i.toNat ∧ (n = 0 ∨
        ∃ map, MapList.read image.data image.header.mapOffset = .ok map ∧
          n = Source.rowCount ⟨image.data, image.header, map, options⟩ .methodHandle)) ∨
    ∃ map d, MapList.read image.data image.header.mapOffset = .ok map ∧
      ofImage options image = .ok d ∧ d.graph.Intact ∧
      d.graph.count .methodHandle =
        Source.rowCount ⟨image.data, image.header, map, options⟩ .methodHandle ∧
      (∀ (r : Ref .annotationItem) x, d.graph.get? r = some x →
        Section.annotationItem.HandleFree x) ∧
      (∀ (r : Ref .classDef) c, d.graph.get? r = some c → ∀ array ∈ c.staticValues,
        ∀ x, d.graph.get? array = some x → Section.encodedArray.HandleFree x) ∧
      ∀ (r : Ref .encodedArray) x, d.graph.get? r = some x → ∃ (o : UInt32) (q : Nat),
        (Value.decodeArray d.graph).Reads image.data o.toNat x.values q := by
  rcases ofImage_outcome options image with
    ⟨e, he, hhonest⟩ | ⟨map, hmap, ⟨e, he, hrefuses⟩ | ⟨a, classes, ha, hcomplete⟩⟩
  · refine .inl ⟨e, he, fun i n hmissing => ?_⟩
    obtain ⟨rfl, hle⟩ := hhonest.missing .methodHandle i n hmissing (by decide)
    exact ⟨hle, .inl rfl⟩
  · refine .inl ⟨e, he, fun i n hmissing => ?_⟩
    obtain ⟨hle, hn⟩ := hrefuses.missing_methodHandle i n hmissing
    exact ⟨hle, hn.imp_right fun hn => ⟨map, hmap, hn⟩⟩
  · exact .inr ⟨map, _, hmap, ha, hcomplete.built.intact,
      hcomplete.built.count .methodHandle (by decide),
      fun r x hx => hcomplete.annotation_handleFree hx,
      fun r c hc array harray x hx => hcomplete.staticValues_handleFree hc harray hx,
      fun r x hx => hcomplete.exists_reads_array hx⟩

/-- A graph with one class, a constant of which refers to a method handle. -/
def staticHandle : Graph :=
  { Graph.empty with
    stringDatas := .ofItems [⟨3, #[0x4C, 0x41, 0x3B]⟩]
    stringIds := .ofItems [⟨⟨0⟩⟩]
    typeIds := .ofItems [⟨⟨0⟩⟩]
    fieldIds := .ofItems [⟨⟨0⟩, ⟨0⟩, ⟨0⟩⟩]
    methodHandles := .ofItems [⟨.staticPut, .field ⟨0⟩⟩]
    encodedArrays := .ofItems [⟨[.methodHandle ⟨0⟩]⟩]
    classDefs := .ofItems [⟨⟨0⟩, ⟨1⟩, none, none, none, none, none, some ⟨0⟩⟩] }

/-- The number of method handles that an image has and the reason for which it is refused, if it
is. -/
def refusal? (bytes : Bytes) : Option (Nat × Error) :=
  match Image.load bytes with
  | .error _ => none
  | .ok image =>
    match MapList.read image.data image.header.mapOffset, ofImage .preserving image with
    | .ok map, .error e =>
      some (Source.rowCount ⟨image.data, image.header, map, .preserving⟩ .methodHandle, e)
    | _, _ => none

/-- An image that has one method handle is refused because its first one is missed. -/
theorem ofImage_staticHandle : ((staticHandle.write .relayout .empty).1.toOption.bind refusal?) =
    some (1, .missingReference .methodHandle 0 0) := by
  unfold refusal? ofImage
  simp only [Graph.write, Writer.writeImage, Writer.closeImage, Writer.stampHeader,
    FileHeader.store, Stream.contents, Bytes.overlay_eq_laid, Image.data_eq_take,
    Writer.writeMapList, mapListOf, MapEntry.mergeSort_le]
  decide +kernel

end Dex

end DexGraph
