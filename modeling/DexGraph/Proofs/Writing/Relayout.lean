import DexGraph.Proofs.Format.Rows
import DexGraph.Proofs.Graph.Coherence
import DexGraph.Proofs.Writing.Evaluation
import DexGraph.Proofs.Writing.Fresh

/-!
# What a graph that is laid out anew becomes

`FreshImage g l image blocks` says that the image is made of the blocks, that they hold the graph
`g` under the layout `l`, and how they lie. `Graph.write_relayout` says that laying a graph out anew
makes such an image, and `Graph.write_relayout_complete` that it never fails for want of an offset.
-/

namespace DexGraph

/-- The parts of an image of a graph. -/
def Part.InImage (g : Graph) : Part → Prop
  | .header | .mapList => True
  | .table s => s.rowSize? ≠ none ∧ g.count s ≠ 0
  | .item s r => s.rowSize? = none ∧ g.Emitted s r
  | .hiddenapi => g.hiddenapi.isSome
  | .linkData => g.linkData.size ≠ 0

/-- An image that is made of blocks and holds a graph under a layout. -/
structure FreshImage (g : Graph) (l : Layout) (image : Bytes) (blocks : List Block) : Prop where
  size_eq : image.size = l.fileSize.toNat
  parts_iff : ∀ p : Part, p.InImage g ↔ ∃ b ∈ blocks, b.part = p
  assigned_iff : ∀ s, s.rowSize? = none → ∀ r, l.Assigned s r ↔ g.Emitted s r
  named_iff : ∀ s, (∃ o, l.sectionOffset s = some o) ↔ s.Named g Section.dataSections
  distinct : blocks.Pairwise fun a b => a.part ≠ b.part
  ordered : blocks.Pairwise fun a b => a.stop ≤ b.start
  inTurn : blocks.Pairwise fun a b => a.part.InTurn g b.part
  within : ∀ b ∈ blocks, b.start ≤ b.stop ∧ b.stop ≤ image.size
  aligned : ∀ b ∈ blocks, b.part.alignment ∣ b.start
  recorded : ∀ b ∈ blocks, b.Recorded g l
  holds : ∀ b ∈ blocks, b.part ≠ .header → ∃ content, b.part.Holds g l content ∧
    content.length = b.stop - b.start ∧ image.HoldsAt b.start content.toBytes.toList
  header : ∃ header, Writer.headerOf g l = .ok header ∧ image.HoldsAt 0 header.encode.toList
  zero : ∀ i < image.size, (∀ b ∈ blocks, ¬ (b.start ≤ i ∧ i < b.stop)) → image[i]? = some 0
  least : ∀ s, s.rowSize? = none → ∀ o, l.sectionOffset s = some o →
    (∃ b ∈ blocks, b.start = o.toNat ∧ ∃ r, b.part = .item s r) ∧
      ∀ b ∈ blocks, ∀ r, b.part = .item s r → o.toNat ≤ b.start
  dataOffset_dvd : Writer.dataAlignment ∣ l.dataOffset.toNat
  dataEnd_dvd : Writer.dataAlignment ∣ l.dataOffset.toNat + l.dataSize.toNat
  head_le : ∀ b ∈ blocks, b.part.IsHead → b.stop ≤ l.dataOffset.toNat
  le_data : ∀ b ∈ blocks, ¬ b.part.IsHead → l.dataOffset.toNat ≤ b.start
  data_le : ∀ b ∈ blocks, b.part ≠ .linkData → b.stop ≤ l.dataOffset.toNat + l.dataSize.toNat

variable {g : Graph} {l : Layout} {d : Draft}

/-- The image has the entity where the layout says. -/
def Graph.HeldAt (g : Graph) (l : Layout) (image : Bytes) (s : Section) (r : Ref s) : Prop :=
  ∀ x o, g.get? r = some x → (l.place r).offset = some o → ∃ item, s.encode l x = .ok item ∧
    o.toNat + item.length ≤ image.size ∧ image.HoldsAt o.toNat item.toBytes.toList

namespace FreshImage

variable {image : Bytes} {blocks : List Block}

theorem disjoint (h : FreshImage g l image blocks) {a b : Block} (ha : a ∈ blocks)
    (hb : b ∈ blocks) (hne : a.part ≠ b.part) : a.stop ≤ b.start ∨ b.stop ≤ a.start :=
  Block.disjoint_of_ordered h.ordered ha hb hne

theorem eq_of_part_eq (h : FreshImage g l image blocks) {a b : Block} (ha : a ∈ blocks)
    (hb : b ∈ blocks) (heq : a.part = b.part) : a = b :=
  Block.eq_of_distinct h.distinct ha hb heq

theorem size_lt (h : FreshImage g l image blocks) : image.size < 2 ^ 32 :=
  h.size_eq ▸ l.fileSize.toNat_lt

/-- The block of the header. -/
theorem header_mem (h : FreshImage g l image blocks) :
    ⟨.header, 0, FileHeader.byteSize⟩ ∈ blocks := by
  obtain ⟨⟨part, start, stop⟩, hmem, rfl⟩ := (h.parts_iff .header).mp trivial
  obtain ⟨rfl, rfl⟩ := h.recorded _ hmem
  exact hmem

theorem byteSize_le_dataOffset (h : FreshImage g l image blocks) :
    FileHeader.byteSize ≤ l.dataOffset.toNat :=
  h.head_le _ h.header_mem trivial

/-- The block of a data item that has an offset. -/
theorem item_mem (h : FreshImage g l image blocks) {s : Section} (hs : s.rowSize? = none)
    {r : Ref s} {o : UInt32} (ho : (l.place r).offset = some o) :
    ⟨.item s r, o.toNat, o.toNat + (l.place r).size.toNat⟩ ∈ blocks := by
  obtain ⟨⟨part, start, stop⟩, hmem, rfl⟩ :=
    (h.parts_iff (.item s r)).mp ⟨hs, (h.assigned_iff s hs r).mp ⟨o, ho⟩⟩
  have hsize := h.size_lt
  have hwithin := h.within _ hmem
  obtain ⟨-, hplace, -⟩ := h.recorded _ hmem
  simp only at hplace hwithin
  rw [hplace] at ho ⊢
  cases ho
  rw [toNat_toUInt32 (by omega), toNat_toUInt32 (by omega), Nat.add_sub_cancel' hwithin.1]
  exact hmem

/-- No data item lies at the offset zero. -/
theorem offset_ne_zero (h : FreshImage g l image blocks) {s : Section} (hs : s.rowSize? = none)
    {r : Ref s} {o : UInt32} (ho : (l.place r).offset = some o) : o ≠ 0 := by
  have hdata : l.dataOffset.toNat ≤ o.toNat := h.le_data _ (h.item_mem hs ho) id
  have hheader : 112 ≤ l.dataOffset.toNat := h.byteSize_le_dataOffset
  rintro rfl
  rw [UInt32.toNat_zero] at hdata
  omega

theorem assigned_row (h : FreshImage g l image blocks) {s : Section} (hs : s.rowSize? ≠ none)
    {r : Ref s} (hr : g.Has s r) : l.Assigned s r := by
  have hcount : g.count s ≠ 0 := Nat.ne_of_gt (Nat.zero_lt_of_lt hr)
  obtain ⟨⟨part, start, stop⟩, hmem, rfl⟩ := (h.parts_iff (.table s)).mp ⟨hs, hcount⟩
  obtain ⟨-, -, n, -, -, hrows⟩ := h.recorded _ hmem
  exact ⟨_, hrows r hr⟩

/-- A fresh image has every entity where the layout says. -/
theorem heldAt (h : FreshImage g l image blocks) (s : Section) (r : Ref s) :
    g.HeldAt l image s r := by
  intro x o hx ho
  have hlt := h.size_lt
  cases hs : s.rowSize? with
  | none =>
    have hmem := h.item_mem hs ho
    have hwithin := h.within _ hmem
    obtain ⟨content, ⟨x', hx', hitem⟩, hlen, hat⟩ := h.holds _ hmem (by simp)
    cases hx.symm.trans hx'
    simp only at hlen hat hwithin
    exact ⟨content, hitem, by omega, hat⟩
  | some n =>
    have hr : r.pos < g.count s := Graph.has_of_get? hx
    obtain ⟨b, hmem, hp⟩ := (h.parts_iff (.table s)).mp ⟨by simp [hs], by omega⟩
    have hrec := h.recorded b hmem
    simp only [Block.Recorded, hp] at hrec
    obtain ⟨-, -, n', hn', hstop, hrows⟩ := hrec
    cases hs.symm.trans hn'
    have hwithin := h.within b hmem
    obtain ⟨content, hholds, hlen, hat⟩ := h.holds b hmem (by simp [hp])
    rw [hp] at hholds
    obtain ⟨rows, hpieces, rfl⟩ := hholds
    rw [Stream.toBytes_ofBytes] at hat
    have hget : (g.entities s).items.toList[r.pos]? = some x := by
      rw [Array.getElem?_toList]
      exact hx
    have hsize (y : s.Content) (part : Bytes) (hy : Stream.toBytes <$> s.encode l y = .ok part) :
        part.size = n := by
      obtain ⟨item, hitem, rfl⟩ := Except.map_eq_ok_iff.mp hy
      rw [Stream.size_toBytes, Section.length_of_encode_row hs hitem]
    obtain ⟨part, hpart, hrow⟩ := hat.piece hpieces hsize hget
    obtain ⟨item, hitem, rfl⟩ := Except.map_eq_ok_iff.mp hpart
    have hitemLen := Section.length_of_encode_row hs hitem
    have hle : (r.pos + 1) * n ≤ g.count s * n := Nat.mul_le_mul_right n hr
    rw [Nat.succ_mul] at hle
    have hstart : o.toNat = b.start + r.pos * n := by
      rw [hrows r hr] at ho
      cases ho
      exact toNat_toUInt32 (by omega)
    exact ⟨item, hitem, by omega, hstart ▸ hrow⟩

end FreshImage

/-! ## The header -/

namespace FileHeader

/-- The header with another checksum and another signature. -/
def stamp (header : FileHeader) (checksum : UInt32) (signature : Signature) : FileHeader :=
  { header with checksum := checksum, signature := signature }

/-- The bytes of a header behind its signature. -/
def afterSignature (header : FileHeader) : List UInt8 :=
  (.ofWord header.fileSize ++ .ofWord header.headerSize ++ .ofWord header.endianTag ++
    header.link.encode ++ .ofWord header.mapOffset ++ header.stringIds.encode ++
    header.typeIds.encode ++ header.protoIds.encode ++ header.fieldIds.encode ++
    header.methodIds.encode ++ header.classDefs.encode ++ header.data.encode : Bytes).toList

theorem toList_encode (header : FileHeader) : header.encode.toList =
    header.magic.toArray.toList ++ (Bytes.ofWord header.checksum).toList ++
      header.signature.toArray.toList ++ header.afterSignature := by
  simp [encode, afterSignature]

/-- A header whose signature and checksum have been stored last is the header with these. -/
theorem holdsAt_stamp {header : FileHeader} {image : Bytes} (hsize : byteSize ≤ image.size)
    (checksum : UInt32) (signature : Signature) :
    (((image.overlay 0 header.encode).overlay signatureOffset signature.toArray).overlay
      checksumOffset (.ofWord checksum)).HoldsAt 0 (header.stamp checksum signature).encode.toList := by
  have hplain : (image.overlay 0 header.encode).HoldsAt 0 header.encode.toList :=
    Bytes.holdsAt_overlay (by simpa using hsize)
  have hsig : signatureOffset + signature.toArray.size ≤ (image.overlay 0 header.encode).size := by
    rw [Bytes.size_overlay, Vector.size_toArray]
    exact Nat.le_trans (by decide) hsize
  have hsum : checksumOffset + (Bytes.ofWord checksum).size ≤
      ((image.overlay 0 header.encode).overlay signatureOffset signature.toArray).size := by
    rw [Bytes.size_overlay, Bytes.size_overlay, Bytes.size_ofWord]
    exact Nat.le_trans (by decide) hsize
  rw [toList_encode] at hplain ⊢
  simp only [Bytes.holdsAt_append, List.length_append, Array.length_toList, Vector.size_toArray,
    Bytes.size_ofWord] at hplain ⊢
  obtain ⟨⟨⟨hmagic, -⟩, -⟩, hrest⟩ := hplain
  refine ⟨⟨⟨?_, ?_⟩, ?_⟩, ?_⟩
  · refine (hmagic.overlay (.inl ?_)).overlay (.inl ?_) <;> simp [signatureOffset, checksumOffset]
  · exact Bytes.holdsAt_overlay hsum
  · refine (Bytes.holdsAt_overlay hsig).overlay (.inr ?_)
    simp [signatureOffset, checksumOffset]
  · refine (hrest.overlay (.inr ?_)).overlay (.inr ?_) <;> simp [signatureOffset, checksumOffset]

end FileHeader

/-- The header of a layout with another signature and checksum. -/
theorem Writer.headerOf_stamp {header : FileHeader} (h : headerOf g l = .ok header)
    (checksum : UInt32) (signature : Signature) :
    headerOf g { l with signature := signature, checksum := checksum } =
      .ok (header.stamp checksum signature) := by
  have hrange (s : Section) : tableRange g { l with signature := signature, checksum := checksum } s =
      tableRange g l s := rfl
  simp only [headerOf, hrange, Except.bind_eq_ok_iff, Except.pure_eq_ok_iff] at h ⊢
  obtain ⟨link, hlink, t₁, h₁, t₂, h₂, t₃, h₃, t₄, h₄, t₅, h₅, t₆, h₆, rfl⟩ := h
  exact ⟨link, hlink, t₁, h₁, t₂, h₂, t₃, h₃, t₄, h₄, t₅, h₅, t₆, h₆, rfl⟩

theorem Writer.not_lacksOffset_of_headerOf {e : Error} (h : headerOf g l = .error e) :
    ¬ e.LacksOffset := by
  have hrange (s : Section) (h : tableRange g l s = .error e) : ¬ e.LacksOffset := by
    simp only [tableRange, Except.bind_eq_error_iff, Except.pure_ne_error, and_false, exists_false,
      or_false] at h
    exact not_lacksOffset_of_toWord h
  simp only [headerOf, Except.bind_eq_error_iff, Except.pure_ne_error, and_false, exists_false,
    or_false] at h
  rcases h with h | ⟨_, -, h | ⟨_, -, h | ⟨_, -, h | ⟨_, -, h | ⟨_, -, h | ⟨_, -, h⟩⟩⟩⟩⟩⟩
  · exact not_lacksOffset_of_toWord h
  all_goals exact hrange _ h

/-- An output in which everything but the header has been stored becomes a fresh image when the
header is put in front. -/
theorem Progress.stamp {blocks : List Block}
    (hstate : State g (Part.InImage g) (· = .header) (Section.Named g Section.dataSections) .closed d)
    (hb : Progress g (Part.InImage g) (· = .header) .closed blocks d) {fileSize : UInt32}
    (hsize : d.stream.length = fileSize.toNat) {header : FileHeader}
    (hheader : Writer.headerOf g { d.layout with fileSize := fileSize } = .ok header)
    (hfits : FileHeader.byteSize ≤ d.stream.length) (checksum : UInt32) (signature : Signature) :
    FreshImage g { d.layout with
        fileSize := fileSize, signature := signature, checksum := checksum }
      ((((d.stream.contents fileSize.toNat).overlay 0 header.encode).overlay
        FileHeader.signatureOffset signature.toArray).overlay FileHeader.checksumOffset
          (.ofWord checksum)) blocks := by
  set l' : Layout := { d.layout with
    fileSize := fileSize, signature := signature, checksum := checksum } with hl'
  set image := (((d.stream.contents fileSize.toNat).overlay 0 header.encode).overlay
    FileHeader.signatureOffset signature.toArray).overlay FileHeader.checksumOffset
      (.ofWord checksum) with himage
  have himageSize : image.size = fileSize.toNat := by simp [himage]
  have hkeeps : d.layout.Keeps g (Part.InImage g) l' :=
    ⟨fun _ _ _ _ => rfl, fun _ _ ho => ho, fun _ _ => rfl, fun _ => ⟨rfl, rfl⟩, fun _ => rfl⟩
  have hother (i : Nat) (hi : FileHeader.byteSize ≤ i) :
      image[i]? = (d.stream.contents fileSize.toNat)[i]? := by
    have h₁ : FileHeader.byteSize = 112 := rfl
    have h₂ : FileHeader.signatureOffset = 12 := rfl
    have h₃ : FileHeader.checksumOffset = 8 := rfl
    simp only [himage, Bytes.getElem?_overlay, Vector.size_toArray, Bytes.size_ofWord,
      FileHeader.size_encode]
    rw [if_neg (by omega), if_neg (by omega), if_neg (by omega)]
  obtain ⟨hd, hhd, hpart⟩ := (hb.parts_iff .header).mp trivial
  have hrange : hd.start = 0 ∧ hd.stop = FileHeader.byteSize := by
    have := hb.recorded hd hhd
    simpa only [Block.Recorded, hpart] using this
  obtain ⟨hdvd, hdataLe, hopened⟩ := hb.opened (by simp)
  obtain ⟨hendDvd, hclosed⟩ := hb.closed rfl
  have hbehind (b : Block) (hmem : b ∈ blocks) (hne : b.part ≠ .header) (hpos : b.start < b.stop) :
      FileHeader.byteSize ≤ b.start := by
    rcases hb.disjoint hhd hmem (fun h => hne (h.symm.trans hpart)) with h | h <;> omega
  constructor
  case size_eq => exact himageSize
  case parts_iff => exact hb.parts_iff
  case assigned_iff =>
    intro s hs r
    exact (hstate.assigned_iff s hs r).trans (and_iff_right hs)
  case named_iff => exact hstate.named_iff
  case distinct => exact hb.distinct
  case ordered => exact hb.ordered
  case inTurn => exact hb.inTurn
  case within =>
    intro b hmem
    rw [himageSize, ← hsize]
    exact hb.within b hmem
  case aligned => exact hb.aligned
  case recorded => exact fun b hmem => (hb.recorded b hmem).keeps hkeeps (hb.part_mem hmem)
  case holds =>
    intro b hmem hne
    obtain ⟨content, hholds, hlen, hbytes⟩ := hb.filled b hmem hne
    refine ⟨content, hholds.keeps hkeeps (hb.part_mem hmem), hlen, fun i v hi => ?_⟩
    have hlt := (List.getElem?_eq_some_iff.mp hi).1
    rw [Array.length_toList, Stream.size_toBytes] at hlt
    have hwithin := hb.within b hmem
    have := hbehind b hmem hne (by omega)
    rw [Array.getElem?_toList, Stream.getElem?_toBytes, if_pos hlt] at hi
    rw [hother _ (by omega), Stream.getElem?_contents, if_pos (by omega), hbytes i hlt, hi]
  case header =>
    refine ⟨header.stamp checksum signature, Writer.headerOf_stamp hheader checksum signature, ?_⟩
    exact FileHeader.holdsAt_stamp (by simpa [← hsize] using hfits) checksum signature
  case zero =>
    intro i hi hout
    have hge : FileHeader.byteSize ≤ i := by
      have := hout hd hhd
      omega
    rw [himageSize] at hi
    rw [hother i hge, Stream.getElem?_contents, if_pos hi]
    cases hv : d.stream.byteAt? i with
    | none => rfl
    | some v =>
      obtain ⟨b, hmem, hin⟩ := hb.covered i v hv
      exact absurd hin (hout b hmem)
  case least => exact hb.least
  case dataOffset_dvd => exact hdvd
  case dataEnd_dvd => exact hendDvd
  case head_le => exact fun b hmem => (hopened b hmem).1
  case le_data => exact fun b hmem => (hopened b hmem).2
  case data_le => exact hclosed

namespace State

/-- Fixing the size of the image and putting the header in front. -/
theorem finish
    (h : State g (Part.InImage g) (· = .header) (Section.Named g Section.dataSections) .closed d) :
    Writer.Establishes (.relayout g) Error.Other (do Writer.stampHeader (← Writer.closeImage))
      (fun image d' => ∃ blocks, FreshImage g d'.layout image blocks) d := by
  have hoffsets : (Job.relayout g).options.computeOffsets = true := rfl
  have hsignature : (Job.relayout g).options.updateSignature = true := rfl
  have hchecksum : (Job.relayout g).options.updateChecksum = true := rfl
  unfold Writer.closeImage Writer.stampHeader
  simp only [Writer.establishes_bind, Writer.establishes_computesOffsets, hoffsets, if_true,
    Writer.establishes_changeLayout, Writer.establishes_ofExcept, Writer.establishes_get,
    Writer.establishes_read, Writer.establishes_pure, hsignature, hchecksum]
  refine ⟨fun fileSize hsize => ⟨fun header hheader => ⟨fun image himage => ?_, fun e he => ?_⟩,
    fun e he => Writer.not_lacksOffset_of_headerOf he⟩, fun e he => not_lacksOffset_of_toWord he⟩
  · rw [toWord_eq_ok_iff] at hsize
    obtain ⟨blocks, hb⟩ := h.progress (hsize ▸ fileSize.toNat_lt)
    generalize imageChecksum _ = checksum
    generalize imageSignature _ = signature
    obtain ⟨hfits, himage⟩ := FileHeader.store_eq_ok_iff.mp himage
    rw [Stream.size_contents, ← hsize] at hfits
    rw [himage]
    exact ⟨blocks, hb.stamp h hsize hheader hfits checksum signature⟩
  · unfold FileHeader.store at he
    split at he
    · cases he
      rintro ⟨_, ⟨⟩⟩
    · cases he

/-- Laying a graph out anew, from a layout in which nothing has an offset. -/
theorem writeImage (hg : g.Sound) (layout : Layout) :
    Writer.Establishes (.relayout g) Error.Other Writer.writeImage
      (fun image d' => ∃ blocks, FreshImage g d'.layout image blocks) ⟨∅, layout⟩ := by
  have hoffsets : (Job.relayout g).options.computeOffsets = true := rfl
  unfold Writer.writeImage
  rw [Writer.establishes_bind, Writer.establishes_computesOffsets, hoffsets, if_pos rfl]
  rw [Writer.establishes_bind, Writer.establishes_changeLayout, Writer.establishes_bind,
    Writer.establishes_changeStream]
  refine (writeTables hg (start g layout) fun _ => rfl).bind ?_
  rintro _ d ⟨h, hend⟩
  refine (h.openData hend).bind ?_
  rintro _ d ⟨h, hend⟩
  refine (h.writeData hg hend).bind fun _ d h => ?_
  have hnotData {s : Section} (hs : s.rowSize? ≠ none) : s ∉ Section.dataSections :=
    fun h => hs (Section.mem_dataSections.mp h)
  refine (h.fillTables hg (fun s hs => ?_) (fun s hs => ?_) fun s r hs hr => ?_).bind fun _ d h => ?_
  · simp [Part.Placed, Part.InHead, hs]
  · simp [Section.Named, Part.InHead, hs, hnotData hs]
  · exact .inl ⟨Section.mem_dataSections.mpr hs, hr⟩
  refine (h.writeMapList (fun s r hr => ?_) (fun hflags => .inr ⟨rfl, hflags⟩)
    (by simp [Part.Placed, Part.InHead]) (by simp)).bind ?_
  · rcases hr with hr | ⟨⟨⟩, -⟩
    exact hr.2
  rintro _ d ⟨h, hend⟩
  refine (h.writeLinkData hend (by simp [Part.Placed, Part.InHead]) (by simp)).bind ?_
  rintro _ d ⟨h, hend⟩
  refine finish (h.congr (fun p => ?_) (fun _ _ => Iff.rfl) (fun _ => Iff.rfl))
  cases p <;> simp [Part.InImage, Part.Placed, Part.InHead, Section.mem_dataSections]

end State

namespace Graph

variable {layout : Layout} {image : Bytes}

/-- A graph that has been laid out anew is held by the image under the layout it has got. -/
theorem write_relayout (hg : g.Sound) (h : g.write .relayout layout = (.ok image, l)) :
    ∃ blocks, FreshImage g l image blocks := by
  have himage := State.writeImage hg layout
  unfold write at h
  cases hrun : Writer.writeImage ⟨g, .relayout, g.liveCode⟩ ⟨∅, layout⟩ with
  | ok image' d =>
    rw [hrun] at h
    cases h
    exact himage.of_ok hrun
  | error e d =>
    rw [hrun] at h
    cases h

/-- Laying a graph out anew does not fail for want of an offset. -/
theorem write_relayout_error (hg : g.Sound) {e : Error}
    (h : g.write .relayout layout = (.error e, l)) : ¬ e.LacksOffset := by
  have himage := State.writeImage hg layout
  unfold write at h
  cases hrun : Writer.writeImage ⟨g, .relayout, g.liveCode⟩ ⟨∅, layout⟩ with
  | ok image' d =>
    rw [hrun] at h
    cases h
  | error e' d =>
    rw [hrun] at h
    cases h
    exact himage.of_error hrun

/-! ## A graph with one method -/

/-- A graph with one class, whose only method catches what its body throws. -/
def oneMethod : Graph :=
  { empty with
    stringDatas := .ofItems [⟨3, #[0x4C, 0x41, 0x3B]⟩, ⟨1, #[0x56]⟩, ⟨1, #[0x66]⟩]
    stringIds := .ofItems [⟨⟨0⟩⟩, ⟨⟨1⟩⟩, ⟨⟨2⟩⟩]
    typeIds := .ofItems [⟨⟨0⟩⟩, ⟨⟨1⟩⟩]
    protoIds := .ofItems [⟨⟨1⟩, ⟨1⟩, none⟩]
    methodIds := .ofItems [⟨⟨0⟩, ⟨0⟩, ⟨2⟩⟩]
    classDefs := .ofItems [⟨⟨0⟩, ⟨1⟩, none, none, none, none, some ⟨0⟩, none⟩]
    classDatas := .ofItems [⟨none, #[], #[], #[⟨⟨1⟩, ⟨0⟩, some ⟨0⟩, none⟩], #[]⟩]
    codeItems := .ofItems
      [⟨1, 0, 0, some ⟨0⟩, #[0x000E], #[⟨0, 1, 0⟩], #[⟨true, 1, #[⟨none, 0⟩]⟩]⟩]
    debugInfos := .ofItems [⟨#[0, 0, 0]⟩] }

theorem oneMethod_sound : oneMethod.Sound where
  coherent s := by
    cases s with
    | stringData | stringId | typeId | protoId | methodId | classDef | classData | codeItem
    | debugInfo => exact Collection.coherent_ofItems (by decide)
    | _ => exact Collection.coherent_empty
  refs s r x h := by
    have hmem := Array.mem_of_getElem? h
    cases s with
    | stringData | debugInfo => trivial
    | stringId | typeId | protoId | methodId | classDef | classData | codeItem =>
      simp [oneMethod, entities] at hmem
      rcases hmem with rfl | rfl | rfl <;> unfold Section.AllRefs <;> decide
    | _ => simp [oneMethod, entities, empty, withMagic] at hmem

/-- Whether a graph is written can be seen from the outcome. -/
theorem exists_of_isOk {options : WriteOptions} (h : (g.write options layout).1.isOk = true) :
    ∃ image l, g.write options layout = (.ok image, l) := by
  cases hwrite : g.write options layout with
  | mk outcome l =>
    rw [hwrite] at h
    cases outcome with
    | ok image => exact ⟨image, l, rfl⟩
    | error e => cases h

/-- Laying the graph with one method out anew succeeds. -/
theorem write_oneMethod : ∃ image l, oneMethod.write .relayout .empty = (.ok image, l) := by
  refine exists_of_isOk ?_
  simp only [write, Writer.writeImage, Writer.closeImage, Writer.stampHeader, FileHeader.store,
    Stream.contents, Bytes.overlay_eq_laid, Writer.writeMapList, mapListOf, MapEntry.mergeSort_le]
  decide +kernel

end Graph

end DexGraph
