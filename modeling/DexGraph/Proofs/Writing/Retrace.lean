import DexGraph.Dex
import DexGraph.Proofs.Writing.Kept
import DexGraph.Proofs.Writing.KeptImage
import DexGraph.Proofs.Writing.Stamp

/-!
# Writing an image once more

A layout may say where everything lies in an image of a graph. `Retraced` is the invariant of
writing the graph back under that layout: all that has been stored is what the image has there, and
the layout never changes. So the same image comes out (`KeptImage.write`), whatever the order of its
blocks is and even if they overlap. A graph that has been laid out anew has such a layout:
`Dex.write_preserving_of_relayout`.
-/

namespace DexGraph

variable {g : Graph} {options : WriteOptions} {l : Layout} {image : Bytes} {blocks : Set Block}
  {parts : Part → Prop} {d : Draft} {s : Section}

/-- The output agrees with an image that is made of blocks. What has been stored stands in the
image, and the image is zero where nothing has been stored in a block of one of the given parts. -/
structure Retraced (l : Layout) (image : Bytes) (blocks : Set Block) (parts : Part → Prop)
    (d : Draft) : Prop where
  layout_eq : d.layout = l
  length_le : d.stream.length ≤ image.size
  agrees : ∀ i v, d.stream.byteAt? i = some v → image[i]? = some v
  covers : ∀ b ∈ blocks, parts b.part → ∀ i, b.start ≤ i → i < b.stop →
    d.stream.byteAt? i = none → image[i]? = some 0

/-- What `stream` has is `d`, over which the content of a block has been laid. -/
structure Block.LaidOver (b : Block) (content : Stream) (d : Draft) (stream : Stream) : Prop where
  length_le : stream.length ≤ max d.stream.length b.stop
  byteAt?_eq : ∀ i, stream.byteAt? i =
    if b.start ≤ i ∧ i < b.stop then (content.byteAt? (i - b.start)).or (d.stream.byteAt? i)
    else d.stream.byteAt? i

namespace Retraced

theorem congr {parts' : Part → Prop} (h : Retraced l image blocks parts d)
    (hparts : ∀ p, parts' p → parts p) : Retraced l image blocks parts' d :=
  { h with covers := fun b hb hp => h.covers b hb (hparts _ hp) }

/-- Storing once more what a block of the image holds. -/
theorem put (himage : KeptImage g l image blocks) (h : Retraced l image blocks parts d)
    {b : Block} (hb : b ∈ blocks) {content : Stream}
    (hat : image.HoldsAt b.start content.toBytes.toList)
    (hlength : content.length = b.stop - b.start) {stream : Stream}
    (hlaid : b.LaidOver content d stream) :
    Retraced l image blocks (fun p => parts p ∨ p = b.part) { d with stream := stream } := by
  have hwithin := himage.within b hb
  -- Inside the block the image has the content, with zeros for what has not been stored.
  have hcontent (i : Nat) (hi : b.start ≤ i ∧ i < b.stop) :
      image[i]? = some ((content.byteAt? (i - b.start)).getD 0) := by
    have := hat (i - b.start) ((content.byteAt? (i - b.start)).getD 0) (by
      rw [Array.getElem?_toList, Stream.getElem?_toBytes, if_pos (by omega)])
    rwa [Nat.add_sub_cancel' hi.1] at this
  constructor
  case layout_eq => exact h.layout_eq
  case length_le => exact hlaid.length_le.trans (max_le h.length_le hwithin.2)
  case agrees =>
    intro i v hv
    change stream.byteAt? i = some v at hv
    rw [hlaid.byteAt?_eq] at hv
    split at hv
    · rename_i hi
      cases hbyte : content.byteAt? (i - b.start) with
      | none =>
        rw [hbyte, Option.none_or] at hv
        exact h.agrees i v hv
      | some w =>
        rw [hbyte, Option.some_or] at hv
        rw [hcontent i hi, hbyte, ← hv]
        rfl
    · exact h.agrees i v hv
  case covers =>
    intro b' hb' hp i hstart hstop hnone
    change stream.byteAt? i = none at hnone
    rw [hlaid.byteAt?_eq] at hnone
    rcases hp with hp | hp
    · refine h.covers b' hb' hp i hstart hstop ?_
      split at hnone
      · exact (Option.or_eq_none_iff.mp hnone).2
      · exact hnone
    · obtain rfl := himage.eq_of_part_eq _ hb' _ hb hp
      rw [if_pos ⟨hstart, hstop⟩] at hnone
      rw [hcontent i ⟨hstart, hstop⟩, (Option.or_eq_none_iff.mp hnone).1]
      rfl

end Retraced

/-- An item that is put down at the start of its block is laid over the output. -/
theorem Block.laidOver_append {b : Block} {item : Stream} (htight : item.Tight)
    (hlength : item.length = b.stop - b.start) (hle : b.start ≤ b.stop) (d : Draft) :
    b.LaidOver item d (d.stream.seek b.start ++ item) where
  length_le := by
    rw [Stream.length_append, Stream.length_seek, Stream.position_seek]
    omega
  byteAt?_eq i := by
    rw [Stream.byteAt?_append, Stream.position_seek, Stream.byteAt?_seek]
    by_cases hstart : b.start ≤ i
    · by_cases hstop : i < b.stop
      · rw [if_pos hstart, if_pos ⟨hstart, hstop⟩]
      · have hnone : item.byteAt? (i - b.start) = none :=
          Option.eq_none_iff_forall_not_mem.mpr fun v hv => by
            have := htight.lt_length _ v hv
            omega
        rw [if_pos hstart, if_neg (by omega), hnone, Option.none_or]
    · rw [if_neg hstart, if_neg (by omega), Option.none_or]

/-- Bytes that are stored at the start of their block are laid over the output. -/
theorem Draft.Stored.laidOver {b : Block} {out : List UInt8} {d' : Draft}
    (h : d.Stored b.start out d') (hlength : out.length = b.stop - b.start)
    (hle : b.start ≤ b.stop) : b.LaidOver (.ofBytes out.toArray) d d'.stream where
  length_le := by
    have := h.length_le
    omega
  byteAt?_eq i := by
    have hstop : b.start + out.length = b.stop := by omega
    rw [h.byteAt?_eq, hstop]
    split
    · rename_i hi
      rw [Stream.byteAt?_ofBytes, List.getElem?_toArray, List.getElem?_eq_getElem (by omega),
        Option.some_or]
    · rfl

namespace Retraced

/-! ## Data items -/

/-- Storing a data item once more. -/
theorem writeItem (himage : KeptImage g l image blocks) (hkeep : options.computeOffsets = false)
    (hs : s.rowSize? = none) {encode : Layout → s.Content → Except Error Stream}
    (hencode : ∀ l x, encode l x = s.encode l x) (h : Retraced l image blocks parts d)
    {r : Ref s} (hr : g.Written l s r) (first : UInt32) :
    Writer.Establishes (g.job options) (fun _ => False) (Writer.writeItem s encode first r)
      (fun _ => Retraced l image blocks fun p => parts p ∨ p = .item s r) d := by
  obtain ⟨stream, layout⟩ := d
  obtain rfl : layout = l := h.layout_eq
  obtain ⟨x, hx⟩ := Graph.has_iff_exists.mp hr.has
  obtain ⟨o, item, ho, hmem, hitem, htight, hlength, hat⟩ := himage.exists_encode hs hr hx
  have hsize : toWord (o.toNat + item.position - o.toNat) = .ok (layout.place r).size := by
    rw [toWord_eq_ok_iff, Nat.add_sub_cancel_left, htight.position_eq, hlength]
  have hself : layout.setPlace r ⟨some o, (layout.place r).size⟩ = layout :=
    Layout.setPlace_eq_self (by rw [← ho]) rfl
  unfold Writer.writeItem
  rw [Writer.establishes_bind, Writer.establishes_read]
  simp only [Graph.job, hx, Writer.establishes_bind, Writer.establishes_get, ho]
  rw [Writer.establishes_place_some hkeep]
  simp only [Writer.establishes_bind, Writer.establishes_get, Writer.establishes_changeStream,
    Writer.establishes_tell, Writer.establishes_changeLayout, Writer.establishes_pure, hencode,
    Writer.establishes_ofExcept_ok hitem, Stream.position_append, Stream.position_seek,
    Writer.establishes_ofExcept_ok hsize, hself]
  have hlength : item.length = o.toNat + (layout.place r).size.toNat - o.toNat := by omega
  exact h.put himage hmem hat hlength
    (Block.laidOver_append htight hlength (Nat.le_add_right ..) _)

/-- Storing the data items of a section once more. -/
theorem writeItems (himage : KeptImage g l image blocks) (hkeep : options.computeOffsets = false)
    (hs : s.rowSize? = none) {encode : Layout → s.Content → Except Error Stream}
    (hencode : ∀ l x, encode l x = s.encode l x) (h : Retraced l image blocks parts d)
    {refs : Array (Ref s)} (hrefs : ∀ r, r ∈ refs ↔ g.Written l s r) :
    Writer.Establishes (g.job options) (fun _ => False) (Writer.writeItems s refs encode)
      (fun _ => Retraced l image blocks fun p => parts p ∨ ∃ r, g.Written l s r ∧ p = .item s r)
      d := by
  have hloop : Writer.Establishes (g.job options) (fun _ => False)
      (refs.toList.foldlM (Writer.writeItem s encode) 0xFFFFFFFF)
      (fun _ => Retraced l image blocks fun p => parts p ∨ ∃ r ∈ refs.toList, p = .item s r) d := by
    refine Writer.establishes_foldlM (I := fun done _ =>
      Retraced l image blocks fun p => parts p ∨ ∃ r ∈ done, p = .item s r)
      (fun done r rest first d' hxs h' => ?_) (h.congr fun p hp => ?_)
    · have hr : r ∈ refs := by simp [← Array.mem_toList_iff, hxs]
      refine (h'.writeItem himage hkeep hs hencode ((hrefs r).mp hr) first).mono fun _ _ h' => ?_
      refine h'.congr fun p hp => ?_
      simpa only [List.mem_append, List.mem_singleton, or_and_right, exists_or, exists_eq_left,
        or_assoc] using hp
    · simpa using hp
  have hparts (p : Part) (hp : parts p ∨ ∃ r, g.Written l s r ∧ p = .item s r) :
      parts p ∨ ∃ r ∈ refs.toList, p = .item s r := by
    simpa only [Array.mem_toList_iff, hrefs] using hp
  simp only [Writer.writeItems, Writer.establishes_ite, Writer.establishes_pure]
  constructor
  · intro hempty
    refine h.congr fun p hp => (hparts p hp).resolve_right ?_
    rintro ⟨r, hr, -⟩
    rw [Array.isEmpty_iff.mp hempty] at hr
    cases hr
  · intro hempty
    have hnamed : ∃ o, l.sectionOffset s = some o := by
      have hne : refs ≠ #[] := fun h => hempty (Array.isEmpty_iff.mpr h)
      obtain ⟨r, hr⟩ := Array.exists_mem_of_ne_empty _ hne
      exact himage.named s hs r ((hrefs r).mp hr)
    rw [Writer.establishes_bind, ← Array.foldlM_toList]
    refine hloop.mono fun first d' h' => ?_
    obtain ⟨o, ho⟩ := hnamed
    simp only [Writer.establishes_bind, Writer.establishes_computesOffsets, Writer.establishes_get,
      Writer.establishes_ite, Writer.establishes_changeLayout, Writer.establishes_pure,
      h'.layout_eq, ho]
    refine ⟨fun hc => ?_, fun _ => h'.congr hparts⟩
    simp [Graph.job, hkeep] at hc

/-! ## Bodies and hidden-API flags -/

/-- Storing a body once more. -/
private theorem writeBody (himage : KeptImage g l image blocks)
    (h : Retraced l image blocks parts d) {r : Ref .codeItem} (hr : g.Written l .codeItem r)
    (first : UInt32) :
    Writer.Establishes (g.job options) (fun _ => False) (Writer.writeBody first r)
      (fun _ => Retraced l image blocks fun p => parts p ∨ p = .item .codeItem r) d := by
  obtain ⟨stream, layout⟩ := d
  obtain rfl : layout = l := h.layout_eq
  obtain ⟨code, hcode⟩ := Graph.has_iff_exists.mp hr.has
  obtain ⟨o, item, ho, hmem, hitem, htight, hlength, hat⟩ := himage.exists_encode rfl hr hcode
  obtain ⟨debugOffset, hdebug, hitem⟩ := Except.bind_eq_ok_iff.mp hitem
  have hsize : toWord (o.toNat + item.position - o.toNat) = .ok (layout.place r).size := by
    rw [toWord_eq_ok_iff, Nat.add_sub_cancel_left, htight.position_eq, hlength]
  unfold Writer.writeBody
  rw [Writer.establishes_bind, Writer.establishes_read]
  simp only [Graph.job, hcode, Writer.establishes_bind, Writer.establishes_get,
    Writer.establishes_ofExcept_ok (Layout.offsetOf_eq_ok_iff.mpr ho),
    Writer.establishes_ofExcept_ok hdebug, Writer.establishes_ofExcept_ok hitem,
    Writer.establishes_changeStream, Writer.establishes_tell, Stream.position_append,
    Stream.position_seek, Writer.establishes_ofExcept_ok hsize, Writer.establishes_changeLayout,
    Writer.establishes_pure, Layout.setSize_eq_self ho]
  have hlength : item.length = o.toNat + (layout.place r).size.toNat - o.toNat := by omega
  exact h.put himage hmem hat hlength
    (Block.laidOver_append htight hlength (Nat.le_add_right ..) _)

/-- Storing the bodies once more. -/
theorem writeCode (hg : g.Sound) (himage : KeptImage g l image blocks)
    (hkeep : options.computeOffsets = false) (h : Retraced l image blocks parts d) :
    Writer.Establishes (g.job options) (fun _ => False) Writer.writeCode
      (fun _ => Retraced l image blocks fun p =>
        parts p ∨ ∃ r, g.Written l .codeItem r ∧ p = .item .codeItem r) d := by
  unfold Writer.writeCode
  refine (Writer.establishes_codeRefs hg).bind ?_
  rintro refs d ⟨rfl, -, hrefs⟩
  have hrefs (r : Ref .codeItem) : r ∈ refs ↔ g.Written l .codeItem r := by
    rw [hrefs, h.layout_eq]
  rw [Writer.establishes_bind, Writer.establishes_tell, ← Array.foldlM_toList]
  have hloop : Writer.Establishes (g.job options) (fun _ => False)
      (refs.toList.foldlM Writer.writeBody 0xFFFFFFFF) (fun _ => Retraced l image blocks fun p =>
        parts p ∨ ∃ r ∈ refs.toList, p = .item .codeItem r) d := by
    refine Writer.establishes_foldlM (I := fun done _ => Retraced l image blocks fun p =>
      parts p ∨ ∃ r ∈ done, p = .item .codeItem r) (fun done r rest first d' hxs h' => ?_)
      (h.congr fun p hp => ?_)
    · have hr : r ∈ refs := by simp [← Array.mem_toList_iff, hxs]
      refine (h'.writeBody himage ((hrefs r).mp hr) first).mono fun _ _ h' => ?_
      refine h'.congr fun p hp => ?_
      simpa only [List.mem_append, List.mem_singleton, or_and_right, exists_or, exists_eq_left,
        or_assoc] using hp
    · simpa using hp
  refine hloop.bind fun first d' h' => ?_
  simp only [Array.mem_toList_iff, hrefs] at h'
  simp only [Writer.establishes_bind, Writer.establishes_get, Writer.establishes_ite,
    Writer.establishes_changeLayout, Writer.establishes_computesOffsets,
    Writer.establishes_changeStream, Writer.establishes_pure, h'.layout_eq]
  have hoptions : (g.job options).options.computeOffsets = false := hkeep
  refine ⟨fun hunnamed => ?_, fun _ => ⟨fun hc => ?_, fun _ => h'⟩⟩
  · -- A section with a written body has an offset.
    rw [Bool.and_eq_true, Bool.not_eq_true', Array.isEmpty_eq_false_iff,
      Option.isNone_iff_eq_none] at hunnamed
    obtain ⟨r, hr⟩ := Array.exists_mem_of_ne_empty _ hunnamed.1
    obtain ⟨o, ho⟩ := himage.named .codeItem rfl r ((hrefs r).mp hr)
    rw [ho] at hunnamed
    cases hunnamed.2
  · rw [hoptions] at hc
    cases hc

/-- Storing the hidden-API flags once more. -/
theorem writeHiddenapi (himage : KeptImage g l image blocks)
    (hkeep : options.computeOffsets = false) (h : Retraced l image blocks parts d) :
    Writer.Establishes (g.job options) (fun _ => False) Writer.writeHiddenapi
      (fun _ => Retraced l image blocks fun p => parts p ∨ g.hiddenapi.isSome ∧ p = .hiddenapi)
      d := by
  obtain ⟨stream, layout⟩ := d
  obtain rfl : layout = l := h.layout_eq
  unfold Writer.writeHiddenapi
  rw [Writer.establishes_bind, Writer.establishes_read]
  cases hflags : (g.job options).graph.hiddenapi with
  | none =>
    have hflags : g.hiddenapi = none := hflags
    exact h.congr fun p hp => by simpa [hflags] using hp
  | some flags =>
    have hflags : g.hiddenapi = some flags := hflags
    obtain ⟨b, hb, hpart⟩ := (himage.parts_iff .hiddenapi).mp (by simp [Part.Written, hflags])
    have hrec := himage.recorded b hb
    have hwithin := himage.within b hb
    obtain ⟨content, hcontent, hlength, hat⟩ := himage.holds b hb (by rw [hpart]; simp)
    obtain ⟨part, start, stop⟩ := b
    obtain rfl : part = .hiddenapi := hpart
    change start ≤ stop ∧ stop ≤ image.size at hwithin
    change content.length = stop - start at hlength
    obtain ⟨flags', size, hflags', hitem⟩ := hcontent
    obtain rfl := Option.some.inj (hflags.symm.trans hflags')
    have hplace : layout.hiddenapi = ⟨some start.toUInt32, (stop - start).toUInt32⟩ := hrec.1
    have hitem := hlength ▸ HiddenApi.encode_length hitem
    have htight := HiddenApi.tight_of_encode hitem
    have himageSize := himage.size_lt
    have hstart : start.toUInt32.toNat = start := toNat_toUInt32 (by omega)
    have hsize : toWord (start + content.position - start) = .ok (stop - start).toUInt32 := by
      rw [toWord_eq_ok_iff, Nat.add_sub_cancel_left, htight.position_eq, hlength]
      exact (toNat_toUInt32 (n := stop - start) (by omega)).symm
    have hself : { layout with hiddenapi := ⟨some start.toUInt32, (stop - start).toUInt32⟩ } =
        layout := by
      rw [← hplace]
    simp only [Writer.establishes_bind, Writer.establishes_get, hplace]
    rw [Writer.establishes_place_some hkeep]
    simp only [Writer.establishes_bind, Writer.establishes_changeStream, Writer.establishes_tell,
      Writer.establishes_changeLayout, Writer.establishes_ofExcept_ok hitem,
      Stream.position_append, Stream.position_seek, hstart, Writer.establishes_ofExcept_ok hsize,
      hself]
    refine (h.put himage hb hat hlength
      (Block.laidOver_append htight hlength hwithin.1 _)).congr fun p hp => ?_
    simpa [hflags] using hp

/-! ## Tables -/

/-- Storing the rows of a table once more. -/
theorem fillTable (himage : KeptImage g l image blocks) (hs : s.rowSize? ≠ none) {row : Type}
    [Row row] {toRow : Layout → s.Content → Except Error row}
    (hrow : ∀ l x, s.encode l x = (do return Stream.ofBytes (Row.encode (← toRow l x))))
    (h : Retraced l image blocks parts d) :
    Writer.Establishes (g.job options) (fun _ => False) (Writer.fillTable s toRow)
      (fun _ => Retraced l image blocks fun p => parts p ∨ g.count s ≠ 0 ∧ p = .table s) d := by
  obtain ⟨stream, layout⟩ := d
  obtain rfl : layout = l := h.layout_eq
  simp only [Writer.fillTable, Writer.establishes_bind, Writer.establishes_read,
    Writer.establishes_ite, Writer.establishes_get, Writer.establishes_pure]
  constructor
  · intro hempty
    have hcount : g.count s = 0 := by
      simpa [Graph.job, Graph.count, Collection.size] using hempty
    exact h.congr fun p hp => by simpa [hcount] using hp
  · intro hempty
    have hcount : g.count s ≠ 0 := by
      simpa [Graph.job, Graph.count, Collection.size] using hempty
    obtain ⟨b, hb, hpart⟩ := (himage.parts_iff (.table s)).mp ⟨hs, hcount⟩
    have hrec := himage.recorded b hb
    have hwithin := himage.within b hb
    obtain ⟨content, hcontent, hlength, hat⟩ := himage.holds b hb (by rw [hpart]; simp)
    obtain ⟨part, start, stop⟩ := b
    obtain rfl : part = .table s := hpart
    obtain ⟨rows, hrows, rfl⟩ := hcontent
    change start ≤ stop ∧ stop ≤ image.size at hwithin
    change _ = stop - start at hlength
    have himageSize := himage.size_lt
    have hstart : start.toUInt32.toNat = start := toNat_toUInt32 (by omega)
    simp only [show layout.sectionOffset s = some start.toUInt32 from hrec.1,
      Writer.establishes_bind, Writer.establishes_changeStream, hstart]
    refine (Writer.establishes_rows (d := ⟨stream, layout⟩) hrow (fun x hx e he => ?_)
      start).mono fun _ d' hd' => ?_
    · obtain ⟨bytes, hbytes⟩ := Bytes.exists_of_pieces hrows (Array.mem_toList_iff.mpr hx)
      rw [he] at hbytes
      cases hbytes
    · obtain ⟨out, hout, hstored⟩ := hd'
      obtain rfl := Except.ok.inj (hrows.symm.trans hout)
      have hlayout : d'.layout = layout := hstored.layout_eq
      rw [Stream.length_ofBytes, List.size_toArray] at hlength
      have := h.put himage hb hat (by simpa using hlength) (hstored.laidOver hlength hwithin.1)
      rw [← hlayout] at this ⊢
      exact this.congr fun p hp => by simpa [hcount] using hp

/-! ## Map list and link data -/

/-- Storing bytes once more that make up a block of the image. -/
private theorem write (himage : KeptImage g l image blocks) (h : Retraced l image blocks parts d)
    {b : Block} (hb : b ∈ blocks) {bytes : Bytes} (hat : image.HoldsAt b.start bytes.toList)
    (hlength : bytes.size = b.stop - b.start) :
    Retraced l image blocks (fun p => parts p ∨ p = b.part)
      { d with stream := (d.stream.seek b.start).write bytes } := by
  have hstored := (d.stored_seek b.start).write bytes
  rw [List.nil_append] at hstored
  have hat : image.HoldsAt b.start (Stream.ofBytes bytes).toBytes.toList := by
    rwa [Stream.toBytes_ofBytes]
  exact h.put himage hb hat (by simpa using hlength)
    (hstored.laidOver (by simpa using hlength) (himage.within b hb).1)

/-- Storing the map list once more. -/
theorem writeMapList (himage : KeptImage g l image blocks)
    (hkeep : options.computeOffsets = false) (h : Retraced l image blocks parts d) :
    Writer.Establishes (g.job options) (fun _ => False) Writer.writeMapList
      (fun _ => Retraced l image blocks fun p => parts p ∨ p = .mapList) d := by
  obtain ⟨stream, layout⟩ := d
  obtain rfl : layout = l := h.layout_eq
  obtain ⟨b, hb, hpart, hrec, hstart, content, hcontent, hlength, hat⟩ :=
    himage.exists_block (p := .mapList) trivial (by simp)
  obtain ⟨list, bytes, hlist, hbytes, rfl⟩ := hcontent
  have hoffset : layout.mapOffset = b.start.toUInt32 := by
    rw [Block.Recorded, hpart] at hrec
    exact hrec
  have hoptions : (g.job options).options.computeOffsets = false := hkeep
  have hlist : mapListOf (g.job options).graph layout = .ok list := hlist
  simp only [Writer.writeMapList, Writer.establishes_bind, Writer.establishes_computesOffsets,
    hoptions, Bool.false_eq_true, if_false, Writer.establishes_get, Writer.establishes_read,
    Writer.establishes_changeStream, Writer.establishes_pure, Writer.establishes_ofExcept_ok hlist,
    Writer.establishes_ofExcept_ok hbytes, hoffset, hstart]
  rw [← hpart]
  exact h.write himage hb (by rwa [Stream.toBytes_ofBytes] at hat) (by simpa using hlength)

/-- Storing the link data once more. -/
theorem writeLinkData (himage : KeptImage g l image blocks)
    (hkeep : options.computeOffsets = false) (h : Retraced l image blocks parts d) :
    Writer.Establishes (g.job options) (fun _ => False) Writer.writeLinkData
      (fun _ => Retraced l image blocks fun p => parts p ∨ g.linkData.size ≠ 0 ∧ p = .linkData)
      d := by
  obtain ⟨stream, layout⟩ := d
  obtain rfl : layout = l := h.layout_eq
  have hoptions : (g.job options).options.computeOffsets = false := hkeep
  simp only [Writer.writeLinkData, Writer.establishes_bind, Writer.establishes_read,
    Writer.establishes_ite, Writer.establishes_computesOffsets, hoptions, Bool.false_eq_true,
    false_imp_iff, true_and, not_false_eq_true, true_imp_iff, Writer.establishes_pure,
    Writer.establishes_get, Writer.establishes_changeStream]
  constructor
  · intro hempty
    have hsize : g.linkData.size = 0 := Array.isEmpty_iff_size_eq_zero.mp hempty
    exact h.congr fun p hp => by simpa [hsize] using hp
  · intro hempty
    have hsize : g.linkData.size ≠ 0 := fun h => hempty (Array.isEmpty_iff_size_eq_zero.mpr h)
    obtain ⟨b, hb, hpart, hrec, hstart, content, rfl, hlength, hat⟩ :=
      himage.exists_block (p := .linkData) hsize (by simp)
    have hoffset : layout.linkOffset = b.start.toUInt32 := by
      rw [Block.Recorded, hpart] at hrec
      exact hrec.1
    rw [Stream.toBytes_ofBytes] at hat
    rw [hoffset, hstart]
    refine (h.write himage hb hat (by simpa using hlength)).congr fun p hp => ?_
    rw [hpart]
    simpa [hsize] using hp

/-! ## All parts -/

/-- Storing the tables that name no data items once more. -/
private theorem writeTables (himage : KeptImage g l image blocks)
    (hkeep : options.computeOffsets = false) (h : Retraced l image blocks (fun _ => False) d) :
    Writer.Establishes (g.job options) (fun _ => False) Writer.writeTables
      (fun _ => Retraced l image blocks fun p => ∃ s, g.count s ≠ 0 ∧ p = .table s ∧
        s ∈ [Section.typeId, .fieldId, .methodId, .methodHandle]) d := by
  unfold Writer.writeTables
  have hoptions : (g.job options).options.computeOffsets = false := hkeep
  rw [Writer.establishes_bind, Writer.establishes_reserveTable hoptions, Writer.establishes_bind,
    Writer.establishes_writeTable hoptions]
  refine (h.fillTable (s := .typeId) himage (by decide) fun _ _ => rfl).mono fun _ d h => ?_
  rw [Writer.establishes_bind, Writer.establishes_reserveTable hoptions, Writer.establishes_bind,
    Writer.establishes_writeTable hoptions]
  refine (h.fillTable (s := .fieldId) himage (by decide) fun _ _ => rfl).mono fun _ d h => ?_
  rw [Writer.establishes_bind, Writer.establishes_writeTable hoptions]
  refine (h.fillTable (s := .methodId) himage (by decide) fun _ _ => rfl).mono fun _ d h => ?_
  rw [Writer.establishes_bind, Writer.establishes_reserveTable hoptions, Writer.establishes_bind,
    Writer.establishes_reserveTable hoptions, Writer.establishes_writeTable hoptions]
  refine (h.fillTable (s := .methodHandle) himage (by decide) fun _ _ => rfl).mono fun _ d h => ?_
  refine h.congr ?_
  rintro _ ⟨s, hcount, rfl, hs⟩
  fin_cases hs <;> simp [hcount]

/-- Storing all data items of a section once more. -/
private theorem writeSection (hg : g.Sound) (himage : KeptImage g l image blocks)
    (hkeep : options.computeOffsets = false) (hs : s.rowSize? = none)
    {encode : Layout → s.Content → Except Error Stream}
    (hencode : ∀ l x, encode l x = s.encode l x) (hall : ∀ r, g.Has s r ↔ g.Written l s r)
    (h : Retraced l image blocks parts d) :
    Writer.Establishes (g.job options) (fun _ => False) (Writer.writeSection s encode)
      (fun _ => Retraced l image blocks fun p => parts p ∨ ∃ r, g.Written l s r ∧ p = .item s r)
      d := by
  unfold Writer.writeSection
  rw [Writer.establishes_bind, Writer.establishes_read]
  exact h.writeItems himage hkeep hs hencode fun r => hg.mem_order.trans (hall r)

/-- Storing the data items and the hidden-API flags once more. -/
private theorem writeData (hg : g.Sound) (himage : KeptImage g l image blocks)
    (hkeep : options.computeOffsets = false) (h : Retraced l image blocks parts d) :
    Writer.Establishes (g.job options) (fun _ => False) Writer.writeData
      (fun _ => Retraced l image blocks fun p => parts p ∨
        (∃ s r, s.rowSize? = none ∧ g.Written l s r ∧ p = .item s r) ∨
          g.hiddenapi.isSome ∧ p = .hiddenapi) d := by
  have hdebug (refs : Array (Ref .debugInfo))
      (hrefs : ∀ r, r ∈ refs ↔ g.Written d.layout .debugInfo r) (r : Ref .debugInfo) :
      r ∈ refs ↔ g.Written l .debugInfo r := by
    rw [hrefs, h.layout_eq]
  unfold Writer.writeData
  rw [Writer.establishes_bind, Writer.establishes_reserveCode hkeep]
  refine (Writer.establishes_debugInfoRefs hg).bind ?_
  rintro refs d ⟨rfl, -, hrefs⟩
  refine (h.writeItems himage hkeep rfl (fun _ _ => rfl) (hdebug refs hrefs)).bind fun _ d h => ?_
  refine (h.writeCode hg himage hkeep).bind fun _ d h => ?_
  refine (h.writeSection (s := .encodedArray) hg himage hkeep rfl (fun _ _ => rfl)
    fun _ => Iff.rfl).bind fun _ d h => ?_
  refine (h.writeSection (s := .annotationItem) hg himage hkeep rfl (fun _ _ => rfl)
    fun _ => Iff.rfl).bind fun _ d h => ?_
  refine (h.writeSection (s := .annotationSet) hg himage hkeep rfl (fun _ _ => rfl)
    fun _ => Iff.rfl).bind fun _ d h => ?_
  refine (h.writeSection (s := .annotationSetRefList) hg himage hkeep rfl (fun _ _ => rfl)
    fun _ => Iff.rfl).bind fun _ d h => ?_
  refine (h.writeSection (s := .annotationsDirectory) hg himage hkeep rfl (fun _ _ => rfl)
    fun _ => Iff.rfl).bind fun _ d h => ?_
  refine (h.writeSection (s := .typeList) hg himage hkeep rfl (fun _ _ => rfl)
    fun _ => Iff.rfl).bind fun _ d h => ?_
  refine (h.writeSection (s := .classData) hg himage hkeep rfl (fun _ _ => rfl)
    fun _ => Iff.rfl).bind fun _ d h => ?_
  refine (h.writeSection (s := .stringData) hg himage hkeep rfl (fun _ _ => rfl)
    fun _ => Iff.rfl).bind fun _ d h => ?_
  refine (h.writeHiddenapi himage hkeep).mono fun _ d h => h.congr ?_
  rintro p (hp | ⟨s, r, hs, hr, rfl⟩ | hp)
  · simp only [hp, true_or]
  · cases s with
    | stringId | typeId | protoId | fieldId | methodId | classDef | callSiteId | methodHandle =>
      cases hs
    | _ => simp [hr]
  · simp only [hp, and_self, or_true]

/-- Storing the tables that name data items once more. -/
private theorem fillTables (himage : KeptImage g l image blocks)
    (h : Retraced l image blocks parts d) :
    Writer.Establishes (g.job options) (fun _ => False) Writer.fillTables
      (fun _ => Retraced l image blocks fun p => parts p ∨ ∃ s, g.count s ≠ 0 ∧ p = .table s ∧
        s ∈ [Section.stringId, .protoId, .classDef, .callSiteId]) d := by
  unfold Writer.fillTables
  refine (h.fillTable (s := .stringId) himage (by decide) fun _ _ => rfl).bind fun _ d h => ?_
  refine (h.fillTable (s := .protoId) himage (by decide) fun _ _ => rfl).bind fun _ d h => ?_
  refine (h.fillTable (s := .classDef) himage (by decide) fun _ _ => rfl).bind fun _ d h => ?_
  refine (h.fillTable (s := .callSiteId) himage (by decide) fun _ _ => rfl).mono fun _ d h => ?_
  refine h.congr ?_
  rintro p (hp | ⟨s, hcount, rfl, hs⟩)
  · simp only [hp, true_or]
  · fin_cases hs <;> simp [hcount]

/-! ## The whole image -/

/-- When every part has been stored, putting the header in front gives the image. -/
theorem contents_eq (himage : KeptImage g l image blocks)
    (h : Retraced l image blocks (fun p => p.Written g l ∧ p ≠ .header) d) {header : FileHeader}
    (hat : image.HoldsAt 0 header.encode.toList) :
    (d.stream.contents l.fileSize.toNat).overlay 0 header.encode = image := by
  apply Array.ext_getElem?
  intro i
  rw [Bytes.getElem?_overlay, Stream.size_contents, FileHeader.size_encode, ← himage.size_eq,
    Stream.getElem?_contents]
  by_cases hsize : i < image.size
  · rw [if_pos hsize]
    by_cases hi : i < FileHeader.byteSize
    · rw [if_pos ⟨Nat.zero_le i, by omega, hsize⟩, Nat.sub_zero]
      have hlt : i < header.encode.size := by rwa [FileHeader.size_encode]
      have := hat i header.encode[i] (by rw [Array.getElem?_toList, Array.getElem?_eq_getElem hlt])
      rw [Nat.zero_add] at this
      rw [this, Array.getElem?_eq_getElem hlt]
    · rw [if_neg (by omega)]
      cases hbyte : d.stream.byteAt? i with
      | some v => exact (h.agrees i v hbyte).symm
      | none =>
        -- Where nothing has been stored the image is zero, inside its blocks and between them.
        by_cases hin : ∃ b ∈ blocks, b.start ≤ i ∧ i < b.stop
        · obtain ⟨b, hb, hstart, hstop⟩ := hin
          refine (h.covers b hb ⟨(himage.parts_iff _).mpr ⟨b, hb, rfl⟩, fun hp => ?_⟩ i hstart hstop
            hbyte).symm
          obtain rfl := himage.eq_of_part_eq _ hb _ himage.header_mem hp
          exact hi hstop
        · exact (himage.zero i hsize fun b hb hin' => hin ⟨b, hb, hin'⟩).symm
  · rw [if_neg (by omega), if_neg hsize, Array.getElem?_eq_none (by omega)]

/-- Stamping the header of the image once more. -/
private theorem stampHeader (himage : KeptImage g l image blocks)
    (hchecksum : imageChecksum image = l.checksum)
    (hsignature : options.updateSignature = true → imageSignature image = l.signature)
    {buffer : Bytes} (hsize : FileHeader.byteSize ≤ buffer.size)
    (hbuffer : ∀ header : FileHeader, image.HoldsAt 0 header.encode.toList →
      buffer.overlay 0 header.encode = image) (hlayout : d.layout = l) :
    Writer.Establishes (g.job options) (fun _ => False) (Writer.stampHeader buffer)
      (fun image' d' => image' = image ∧ d'.layout = l) d := by
  obtain ⟨stream, layout⟩ := d
  obtain rfl : layout = l := hlayout
  obtain ⟨header, hheader, hat⟩ := himage.header
  have hstore : header.store buffer = .ok image :=
    FileHeader.store_eq_ok_iff.mpr ⟨hsize, (hbuffer header hat).symm⟩
  obtain ⟨hsum, hsign⟩ : header.checksum = layout.checksum ∧ header.signature = layout.signature := by
    simp only [Writer.headerOf, Except.bind_eq_ok_iff, Except.pure_eq_ok_iff] at hheader
    obtain ⟨_, -, _, -, _, -, _, -, _, -, _, -, _, -, rfl⟩ := hheader
    exact ⟨rfl, rfl⟩
  have hsignature' : (if (g.job options).options.updateSignature = true then imageSignature image
      else header.signature) = layout.signature := by
    split
    · rename_i hupdate
      exact hsignature hupdate
    · exact hsign
  have hchecksum' : (if (g.job options).options.updateChecksum = true then imageChecksum image
      else header.checksum) = layout.checksum := by
    rw [hchecksum, hsum, ite_self]
  rw [FileHeader.toList_encode, Bytes.holdsAt_append, Bytes.holdsAt_append, Bytes.holdsAt_append,
    hsum, hsign] at hat
  have hsignAt : image.overlay FileHeader.signatureOffset layout.signature.toArray = image :=
    Bytes.overlay_eq_self (by simpa [FileHeader.signatureOffset] using hat.1.2)
  have hsumAt : image.overlay FileHeader.checksumOffset (.ofWord layout.checksum) = image :=
    Bytes.overlay_eq_self (by simpa [FileHeader.checksumOffset] using hat.1.1.2)
  have hheader : Writer.headerOf (g.job options).graph layout = .ok header := hheader
  simp only [Writer.stampHeader, Writer.establishes_bind, Writer.establishes_read,
    Writer.establishes_get, Writer.establishes_ofExcept_ok hheader,
    Writer.establishes_ofExcept_ok hstore, Writer.establishes_changeLayout,
    Writer.establishes_pure, hsignature', hsignAt, hchecksum', hsumAt, and_self]

/-- Fixing the size of the image and stamping its header once more. -/
private theorem finish (himage : KeptImage g l image blocks)
    (hkeep : options.computeOffsets = false) (hchecksum : imageChecksum image = l.checksum)
    (hsignature : options.updateSignature = true → imageSignature image = l.signature)
    (h : Retraced l image blocks (fun p => p.Written g l ∧ p ≠ .header) d) :
    Writer.Establishes (g.job options) (fun _ => False)
      (do Writer.stampHeader (← Writer.closeImage))
      (fun image' d' => image' = image ∧ d'.layout = l) d := by
  have hoptions : (g.job options).options.computeOffsets = false := hkeep
  have hlength : ¬ d.stream.length > d.layout.fileSize.toNat := by
    rw [h.layout_eq, ← himage.size_eq]
    exact Nat.not_lt.mpr h.length_le
  have hhead := (himage.within _ himage.header_mem).2
  unfold Writer.closeImage
  simp only [Writer.establishes_bind, Writer.establishes_get, Writer.establishes_computesOffsets,
    hoptions, Bool.false_eq_true, if_false, hlength, Writer.establishes_pure]
  refine stampHeader himage hchecksum hsignature ?_ (fun header hat => ?_) h.layout_eq
  · rw [Stream.size_contents, h.layout_eq, ← himage.size_eq]
    exact hhead
  · rw [h.layout_eq]
    exact h.contents_eq himage hat

/-- Writing an image once more under the layout that says where its parts lie. -/
theorem writeImage (hg : g.Sound) (himage : KeptImage g l image blocks)
    (hkeep : options.computeOffsets = false) (hchecksum : imageChecksum image = l.checksum)
    (hsignature : options.updateSignature = true → imageSignature image = l.signature) :
    Writer.Establishes (g.job options) (fun _ => False) Writer.writeImage
      (fun image' d' => image' = image ∧ d'.layout = l) ⟨∅, l⟩ := by
  have hoptions : (g.job options).options.computeOffsets = false := hkeep
  have hhead := (himage.within _ himage.header_mem).2
  have hstart : Retraced l image blocks (fun _ => False)
      ⟨Stream.skip ∅ FileHeader.byteSize, l⟩ :=
    ⟨rfl, hhead, fun i v hv => (by cases hv), fun _ _ hp => hp.elim⟩
  unfold Writer.writeImage
  rw [Writer.establishes_bind, Writer.establishes_computesOffsets, hoptions]
  simp only [Bool.false_eq_true, if_false]
  rw [Writer.establishes_bind, Writer.establishes_changeStream]
  refine (hstart.writeTables himage hkeep).bind fun _ d h => ?_
  rw [Writer.establishes_bind, Writer.establishes_openData hkeep]
  refine (h.writeData hg himage hkeep).bind fun _ d h => ?_
  refine (h.fillTables himage).bind fun _ d h => ?_
  refine (h.writeMapList himage hkeep).bind fun _ d h => ?_
  refine (h.writeLinkData himage hkeep).bind fun _ d h => ?_
  refine (h.congr ?_).finish himage hkeep hchecksum hsignature
  rintro p ⟨hp, hne⟩
  cases p with
  | header => exact absurd rfl hne
  | table s =>
    obtain ⟨hs, hcount⟩ := hp
    cases s <;> simp_all [Section.rowSize?]
  | item s r =>
    have hitem : ∃ s' r', s'.rowSize? = none ∧ g.Written l s' r' ∧ Part.item s r = .item s' r' :=
      ⟨s, r, hp.1, hp.2, rfl⟩
    simp only [hitem, true_or, or_true]
  | hiddenapi => simp_all [Part.Written]
  | mapList => simp
  | linkData => simp_all [Part.Written]

end Retraced

/-- A graph is written back into an image that holds it, with the checksum and the signature that
are to be stored, and the layout stays as it is. -/
theorem KeptImage.write (hg : g.Sound) (himage : KeptImage g l image blocks)
    (hkeep : options.computeOffsets = false) (hchecksum : imageChecksum image = l.checksum)
    (hsignature : options.updateSignature = true → imageSignature image = l.signature) :
    g.write options l = (.ok image, l) := by
  have hagain : Writer.Establishes ⟨g, options, g.liveCode⟩ _ _ _ _ :=
    Retraced.writeImage hg himage hkeep hchecksum hsignature
  unfold Graph.write
  cases hrun : Writer.writeImage ⟨g, options, g.liveCode⟩ ⟨∅, l⟩ with
  | ok image' d =>
    obtain ⟨rfl, rfl⟩ := hagain.of_ok hrun
    rfl
  | error e d => exact (hagain.of_error hrun).elim

/-- A graph that has just been laid out anew is written back unchanged, into the same image. -/
theorem Graph.write_again {layout : Layout} (hg : g.Sound)
    (h : g.write .relayout layout = (.ok image, l)) (hkeep : options.computeOffsets = false) :
    g.write options l = (.ok image, l) := by
  obtain ⟨blocks, himage⟩ := Graph.write_relayout hg h
  obtain ⟨hchecksum, hsignature⟩ := Graph.write_stamped h
  exact himage.kept.write hg hkeep (hchecksum rfl) fun _ => hsignature rfl

namespace Dex

/-- The two ways of writing agree: what has been laid out anew is written back byte for byte, and
nothing of the file changes. -/
theorem write_preserving_of_relayout {file file' : Dex} (hsound : file.graph.Sound)
    (h : file.write .relayout = (.ok image, file')) :
    file'.write .preserving = (.ok image, file') := by
  unfold write at h
  cases hwrite : file.graph.write .relayout file.layout with
  | mk outcome l =>
    rw [hwrite] at h
    cases h
    have hagain : file.graph.write .preserving l = _ := Graph.write_again hsound hwrite rfl
    simp only [write, hagain]

/-- The file with one method is written back as it has been laid out. -/
theorem write_preserving_oneMethod : ∃ image file',
    Dex.write ⟨.oneMethod, .empty, {}⟩ .relayout = (.ok image, file') ∧
      file'.write .preserving = (.ok image, file') := by
  obtain ⟨image, l, hwrite⟩ := Graph.write_oneMethod
  have h : Dex.write ⟨.oneMethod, .empty, {}⟩ .relayout = (.ok image, ⟨.oneMethod, l, {}⟩) := by
    unfold write
    rw [hwrite]
  exact ⟨image, _, h, write_preserving_of_relayout Graph.oneMethod_sound h⟩

end Dex

end DexGraph
