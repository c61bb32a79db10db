import DexGraph.Proofs.Codec.HiddenApiShape
import DexGraph.Proofs.Writing.Bodies
import DexGraph.Proofs.Writing.MapEntries

/-!
# Fresh images

A fresh image is finished in six steps: the data section is opened behind the tables and filled
section by section, the pending tables are filled in, the map list closes the data section, the
link data follows, and the header is put in front. `Graph.write_relayout` says what the image holds
in the end.
-/

namespace DexGraph

variable {g : Graph} {parts todo : Part → Prop} {named : Section → Prop} {stage : Stage}
  {d d' : Draft} {s : Section}

namespace State

/-! ## The data section -/

/-- The data section is opened behind the tables. -/
theorem openData (h : State g (Part.InHead g) todo (fun s => Part.InHead g (.table s)) .tables d)
    (hend : d.AtEnd) :
    Writer.Establishes (.relayout g) Error.Other Writer.openData (fun _ d' =>
      State g (Part.Placed g []) todo (Section.Named g []) .data d' ∧ d'.AtEnd) d := by
  have hoffsets : (Job.relayout g).options.computeOffsets = true := rfl
  unfold Writer.openData
  rw [Writer.establishes_bind, Writer.establishes_computesOffsets, hoffsets, if_pos rfl]
  simp only [Writer.establishes_bind, Writer.establishes_changeStream, Writer.establishes_tell,
    Writer.establishes_ofExcept, Writer.establishes_changeLayout]
  refine ⟨fun start hstart => ?_, fun e he => not_lacksOffset_of_toWord he⟩
  rw [toWord_eq_ok_iff] at hstart
  have hk : 0 < Writer.dataAlignment := by decide
  have hle : d.stream.length ≤ (d.stream.alignTo Writer.dataAlignment).length := by
    simp only [Stream.alignTo, Stream.length_skip]
    omega
  have hplaced (p : Part) : Part.Placed g [] p ↔ p.InHead g := by
    cases p <;> simp [Part.Placed, Part.InHead]
  suffices hstate : State g (Part.InHead g) todo (fun s => Part.InHead g (.table s)) .data
      ⟨d.stream.alignTo Writer.dataAlignment, { d.layout with dataOffset := start }⟩ by
    refine ⟨hstate.congr hplaced (fun _ _ => Iff.rfl) (fun s => by simp [Section.Named]),
      fun hlt => ?_⟩
    obtain ⟨hpos, hlen⟩ := Stream.alignTo_atEnd (hend (Nat.lt_of_le_of_lt hle hlt)) hk
    rw [hpos, hlen]
  refine ⟨h.assigned_iff, h.rows, h.named_iff, h.hiddenapi_iff, fun hlt => ?_⟩
  have hlt' := Nat.lt_of_le_of_lt hle hlt
  obtain ⟨hpos, hlen⟩ := Stream.alignTo_atEnd (hend hlt') hk
  obtain ⟨blocks, hb⟩ := h.progress hlt'
  have hkeeps : d.layout.Keeps g (Part.InHead g) { d.layout with dataOffset := start } :=
    ⟨fun _ _ _ _ => rfl, fun _ _ ho => ho, fun _ _ => rfl, False.elim, False.elim⟩
  have hb' : Progress g (Part.InHead g) todo .tables blocks
      ⟨d.stream.alignTo Writer.dataAlignment, { d.layout with dataOffset := start }⟩ :=
    hb.relabel (fun _ => rfl) hle hkeeps ⟨fun _ _ => rfl, fun h => absurd rfl h, by simp⟩
  refine ⟨blocks, { hb' with heads := by simp, opened := fun _ => ?_, closed := by simp }⟩
  rw [hpos] at hstart
  change _ ∣ start.toNat ∧ start.toNat ≤ (d.stream.alignTo Writer.dataAlignment).length ∧ _
  rw [← hstart, hlen]
  refine ⟨dvd_alignUp .., le_rfl, fun b hmem => ⟨fun _ => ?_, fun hp => ?_⟩⟩
  · exact Nat.le_trans (hb.within b hmem).2 (le_alignUp _ hk)
  · exact absurd (hb.heads rfl b hmem) hp

/-- Placing a section of which every entity is emitted. -/
theorem writeSection {done : List Section} (hg : g.Sound) (hs : s.rowSize? = none)
    {encode : Layout → s.Content → Except Error Stream}
    (hencode : ∀ l x, encode l x = s.encode l x) (hemitted : ∀ r, g.Has s r ↔ g.Emitted s r)
    (h : State g (Part.Placed g done) todo (Section.Named g done) .data d) (hend : d.AtEnd)
    (hdone : s ∉ done) (htargets : ∀ t ∈ s.offsetTargets, t ∈ done)
    (htodo : ∀ r, ¬ todo (.item s r)) :
    Writer.Establishes (.relayout g) Error.Other (Writer.writeSection s encode) (fun _ d' =>
      State g (Part.Placed g (s :: done)) todo (Section.Named g (s :: done)) .data d' ∧
        d'.AtEnd) d := by
  unfold Writer.writeSection
  rw [Writer.establishes_bind, Writer.establishes_read]
  exact h.writeEmitted hg hs hencode hend (.refl _)
    (fun r => hg.mem_order.trans (hemitted r)) hdone htargets htodo

/-- Storing the hidden-API flags. -/
theorem writeHiddenapi (h : State g parts todo named .data d) (hend : d.AtEnd)
    (hnew : ¬ parts .hiddenapi) (hmap : ¬ parts .mapList) (htodo : ¬ todo .hiddenapi) :
    Writer.Establishes (.relayout g) Error.Other Writer.writeHiddenapi (fun _ d' =>
      State g (fun p => parts p ∨ p = .hiddenapi ∧ g.hiddenapi.isSome) todo named .data d' ∧
        d'.AtEnd) d := by
  have hfree : d.layout.hiddenapi.offset = none :=
    Option.eq_none_iff_forall_not_mem.mpr fun o ho => hnew (h.hiddenapi_iff.mp ⟨o, ho⟩)
  unfold Writer.writeHiddenapi
  rw [Writer.establishes_bind, Writer.establishes_read]
  cases hflags : (Job.relayout g).graph.hiddenapi with
  | none =>
    have hflags : g.hiddenapi = none := hflags
    exact ⟨h.congr (by simp [hflags]) (fun _ _ => Iff.rfl) (fun _ => Iff.rfl), hend⟩
  | some flags =>
    have hflags : g.hiddenapi = some flags := hflags
    simp only []
    rw [Writer.establishes_bind, Writer.establishes_get, Writer.establishes_bind]
    refine Writer.establishes_place fun start hstart => ?_
    simp only [Writer.establishes_bind, Writer.establishes_ofExcept,
      Writer.establishes_changeStream, Writer.establishes_tell, Writer.establishes_changeLayout]
    refine ⟨fun item hitem => ⟨fun size hsize => ?_, fun e he => not_lacksOffset_of_toWord he⟩,
      fun e he => HiddenApi.not_lacksOffset_of_encode he⟩
    have htight := HiddenApi.tight_of_encode hitem
    have hk : 0 < MapItemType.hiddenapiClassData.alignment := by decide
    have hsize : item.length = size.toNat := by
      rw [toWord_eq_ok_iff, Stream.position_append, hstart] at hsize
      have := htight.position_eq
      omega
    have hkeeps : d.layout.Keeps g parts { d.layout with hiddenapi := ⟨some start, size⟩ } :=
      ⟨fun _ _ _ _ => rfl, fun _ _ ho => ho, fun o ho => absurd (hfree.symm.trans ho) (by simp),
        fun hp => absurd hp hmap, fun _ => rfl⟩
    simp only [hflags, Option.isSome_some, and_true]
    refine h.push hend (Stream.puts_append hk htight) hk dvd_rfl hnew (by simp [Layout.Assigned,
      Layout.place]) (fun _ => rfl) (by simp) hkeeps ⟨fun _ _ => rfl, fun _ => rfl, fun _ => rfl⟩
      (by simp [Part.IsHead]) (by simp) (by simp) (by rintro _ _ _ _ _ - ⟨⟩) (fun _ _ => Iff.rfl)
      (fun ht => absurd ht htodo) ?_
    rintro hpos - hfree' b rfl
    rw [(Stream.alignTo_atEnd hpos hk).1] at hstart
    refine ⟨⟨?_, by simp [hflags]⟩, fun _ => ⟨item, ⟨flags, _, hflags, hitem⟩, by simp,
      fun i _ => Stream.byteAt?_append_atEnd hpos hk hfree' i⟩⟩
    simp [hstart, hsize]

/-- Storing all data items. -/
theorem writeData (hg : g.Sound)
    (h : State g (Part.Placed g []) Part.Pending (Section.Named g []) .data d) (hend : d.AtEnd) :
    Writer.Establishes (.relayout g) Error.Other Writer.writeData (fun _ d' =>
      State g (fun p => Part.Placed g Section.dataSections p ∨ p = .hiddenapi ∧ g.hiddenapi.isSome)
        Part.Pending (Section.Named g Section.dataSections) .data d') d := by
  unfold Writer.writeData
  refine (reserveCode hg h hend).bind ?_
  rintro _ d ⟨h, hend⟩
  refine (Writer.establishes_debugInfoRefs_fresh hg (fun r hr => ((h.assigned_iff _ rfl r).mp hr).2)
    fun r hr => ?_).bind ?_
  · simpa using ((h.assigned_iff _ rfl r).mp hr).1
  rintro refs d₁ ⟨hd, hsub, hrefs⟩
  rw [hd]
  refine (h.writeEmitted hg rfl (fun _ _ => rfl) hend hsub hrefs (by decide) (by decide)
    (by simp [Part.Pending])).bind ?_
  rintro _ d ⟨h, hend⟩
  refine (h.writeCode hg hend (by decide) (by decide) (by simp [Part.Pending])).bind ?_
  rintro _ d ⟨h, hend⟩
  refine (h.writeSection (s := .encodedArray) hg rfl (fun _ _ => rfl) (fun _ => Iff.rfl) hend
    (by decide) (by decide) (by simp [Part.Pending])).bind ?_
  rintro _ d ⟨h, hend⟩
  refine (h.writeSection (s := .annotationItem) hg rfl (fun _ _ => rfl) (fun _ => Iff.rfl) hend
    (by decide) (by decide) (by simp [Part.Pending])).bind ?_
  rintro _ d ⟨h, hend⟩
  refine (h.writeSection (s := .annotationSet) hg rfl (fun _ _ => rfl) (fun _ => Iff.rfl) hend
    (by decide) (by decide) (by simp [Part.Pending])).bind ?_
  rintro _ d ⟨h, hend⟩
  refine (h.writeSection (s := .annotationSetRefList) hg rfl (fun _ _ => rfl) (fun _ => Iff.rfl)
    hend (by decide) (by decide) (by simp [Part.Pending])).bind ?_
  rintro _ d ⟨h, hend⟩
  refine (h.writeSection (s := .annotationsDirectory) hg rfl (fun _ _ => rfl) (fun _ => Iff.rfl)
    hend (by decide) (by decide) (by simp [Part.Pending])).bind ?_
  rintro _ d ⟨h, hend⟩
  refine (h.writeSection (s := .typeList) hg rfl (fun _ _ => rfl) (fun _ => Iff.rfl) hend
    (by decide) (by decide) (by simp [Part.Pending])).bind ?_
  rintro _ d ⟨h, hend⟩
  refine (h.writeSection (s := .classData) hg rfl (fun _ _ => rfl) (fun _ => Iff.rfl) hend
    (by decide) (by decide) (by simp [Part.Pending])).bind ?_
  rintro _ d ⟨h, hend⟩
  refine (h.writeSection (s := .stringData) hg rfl (fun _ _ => rfl) (fun _ => Iff.rfl) hend
    (by decide) (by decide) (by simp [Part.Pending])).bind ?_
  rintro _ d ⟨h, hend⟩
  refine (h.writeHiddenapi hend (by simp [Part.Placed, Part.InHead])
    (by simp [Part.Placed, Part.InHead]) (by simp [Part.Pending])).mono ?_
  rintro _ d ⟨h, hend⟩
  refine h.congr (fun p => ?_) (fun _ _ => Iff.rfl) fun t => ?_
  · cases p with
    | item t r => cases t <;> simp [Part.Placed, Section.dataSections]
    | _ => simp [Part.Placed, Part.InHead]
  · cases t <;> simp [Section.Named, Section.dataSections]

/-! ## The pending tables -/

/-- Filling in the tables that name data items. -/
theorem fillTables (hg : g.Sound) (h : State g parts Part.Pending named stage d)
    (hparts : ∀ s, s.rowSize? ≠ none → (parts (.table s) ↔ g.count s ≠ 0))
    (hnamed : ∀ s, s.rowSize? ≠ none → (named s ↔ g.count s ≠ 0))
    (hitems : ∀ s r, s.rowSize? = none → g.Emitted s r → parts (.item s r)) :
    Writer.Establishes (.relayout g) Error.Other Writer.fillTables (fun _ d' =>
      State g parts (· = .header) named stage d') d := by
  have hrefs {d : Draft} {todo : Part → Prop} (h : State g parts todo named stage d) (s : Section)
      (hs : ∀ r, g.Has s r → g.Emitted s r) (r : Ref s) (x : s.Content) (hx : g.get? r = some x) :
      s.AllOffsets d.layout.Assigned x := by
    refine (hg.allOffsets_emitted (hs r (Graph.has_of_get? hx)) hx).mono fun t ht r' hr' => ?_
    have ht := Section.rowSize?_of_mem_offsetTargets ht
    exact (h.assigned_iff t ht r').mpr (hitems t r' ht hr')
  unfold Writer.fillTables
  refine (fillTable hg (s := .stringId) rfl (fun _ _ => rfl) h (hparts _ (by decide))
    (hnamed _ (by decide)) (hrefs h _ fun _ => id)).bind ?_
  rintro _ d ⟨h, _⟩
  refine (fillTable hg (s := .protoId) rfl (fun _ _ => rfl) h (hparts _ (by decide))
    (hnamed _ (by decide)) (hrefs h _ fun _ => id)).bind ?_
  rintro _ d ⟨h, _⟩
  refine (fillTable hg (s := .classDef) rfl (fun _ _ => rfl) h (hparts _ (by decide))
    (hnamed _ (by decide)) (hrefs h _ fun _ => id)).bind ?_
  rintro _ d ⟨h, _⟩
  refine (fillTable hg (s := .callSiteId) rfl (fun _ _ => rfl) h (hparts _ (by decide))
    (hnamed _ (by decide)) (hrefs h _ fun _ => id)).mono ?_
  rintro _ d ⟨h, _⟩
  refine h.congr (fun _ => Iff.rfl) (fun p _ => ?_) (fun _ => Iff.rfl)
  simp only [Part.Pending]
  constructor
  · rintro rfl
    simp
  · tauto

end State

/-! ## The map list -/

namespace Stream

variable {s t : Stream} {k : Nat} {bytes : Bytes}

/-- Bytes are stored behind all others once the output has been brought to a multiple of `k`. -/
theorem puts_write (hlen : s.length ≤ t.length) (ht : s.position = s.length →
    t.position = alignUp s.length k ∧ t.length = alignUp s.length k)
    (hbytes : ∀ i, t.byteAt? i = s.byteAt? i) : s.Puts k bytes.size (t.write bytes) where
  length_le := by
    rw [length_write]
    omega
  position_eq h := by rw [position_write, (ht h).1]
  length_eq h := by
    rw [length_write, (ht h).1, (ht h).2]
    omega
  byteAt?_eq h i hi := by
    rw [byteAt?_write, (ht h).1, hbytes]
    split
    · rw [Array.getElem?_eq_none (by omega), Option.none_or]
    · rw [Option.none_or]

theorem byteAt?_write_atEnd (ht : t.position = alignUp s.length k) (hk : 0 < k)
    (hbytes : ∀ i, t.byteAt? i = s.byteAt? i) (hfree : ∀ i, s.length ≤ i → s.byteAt? i = none)
    (i : Nat) : (t.write bytes).byteAt? (alignUp s.length k + i) = (ofBytes bytes).byteAt? i := by
  have := le_alignUp s.length hk
  rw [byteAt?_write, ht, if_pos (by omega), hbytes, hfree _ (by omega), Option.or_none,
    Nat.add_sub_cancel_left, byteAt?_ofBytes]

end Stream

namespace State

/-- When everything has been placed, the map list does not lack an offset. -/
theorem mapListOf_complete (h : State g parts todo (Section.Named g Section.dataSections) stage d)
    (hitems : ∀ s r, parts (.item s r) → g.Emitted s r)
    (hhidden : g.hiddenapi.isSome → parts .hiddenapi) {offset : UInt32} {e : Error}
    (he : mapListOf g { d.layout with mapOffset := offset } = .error e) : ¬ e.LacksOffset := by
  intro hlacks
  obtain ⟨c, hc, hcount, hnone⟩ := mapListOf_eq_error he hlacks
  obtain rfl | ⟨s, rfl⟩ | rfl | ⟨hflags, rfl⟩ := mem_mapCandidates.mp hc
  · cases hnone
  · have hnamed : s.Named g Section.dataSections := by
      have htable (hcount : g.count s ≠ 0) (hs : s.rowSize? ≠ none) :
          s.Named g Section.dataSections := .inl ⟨hs, hcount⟩
      have hdata (hcount : g.count s ≠ 0) (hs : s ∈ Section.dataSections)
          (hemit : ∀ r, g.Has s r → g.Emitted s r) : s.Named g Section.dataSections := by
        refine .inr ⟨hs, .ofPos 0, hemit _ ?_⟩
        exact Nat.pos_of_ne_zero hcount
      have hplaced (hs : s.rowSize? = none) (hcount : placedCount g
          { d.layout with mapOffset := offset } s ≠ 0) : s.Named g Section.dataSections := by
        obtain ⟨r, hr⟩ := Array.size_pos_iff_exists_mem.mp (Nat.pos_of_ne_zero hcount)
        have hoff := (Array.mem_filter.mp hr).2
        obtain ⟨o, ho⟩ := Option.isSome_iff_exists.mp hoff
        exact .inr ⟨Section.mem_dataSections.mpr hs, r, hitems s r ((h.assigned_iff s hs r).mp ⟨o, ho⟩)⟩
      cases s with
      | codeItem | debugInfo => exact hplaced rfl hcount
      | stringId | typeId | protoId | fieldId | methodId | classDef | callSiteId | methodHandle =>
        exact htable hcount (by decide)
      | _ => exact hdata hcount (by decide) fun _ => id
    obtain ⟨o, ho⟩ := (h.named_iff s).mpr hnamed
    exact absurd (hnone.symm.trans ho) (by simp)
  · cases hnone
  · obtain ⟨o, ho⟩ := h.hiddenapi_iff.mpr (hhidden hflags)
    exact absurd (hnone.symm.trans ho) (by simp)

/-- The data section is closed behind the map list. -/
private theorem closeData (h : State g parts todo named .data d) (hend : d.AtEnd) {stop : UInt32}
    (hstop : (d.stream.alignTo Writer.dataAlignment).position = stop.toNat) :
    State g parts todo named .closed ⟨d.stream.alignTo Writer.dataAlignment,
      { d.layout with dataSize := stop - d.layout.dataOffset }⟩ ∧
    Draft.AtEnd ⟨d.stream.alignTo Writer.dataAlignment,
      { d.layout with dataSize := stop - d.layout.dataOffset }⟩ := by
  have hk : 0 < Writer.dataAlignment := by decide
  have hle : d.stream.length ≤ (d.stream.alignTo Writer.dataAlignment).length := by
    simp only [Stream.alignTo, Stream.length_skip]
    omega
  refine ⟨⟨h.assigned_iff, h.rows, h.named_iff, h.hiddenapi_iff, fun hlt => ?_⟩, fun hlt => ?_⟩
  · have hlt' := Nat.lt_of_le_of_lt hle hlt
    obtain ⟨hpos, hlen⟩ := Stream.alignTo_atEnd (hend hlt') hk
    obtain ⟨blocks, hb⟩ := h.progress hlt'
    have hb' : Progress g parts todo .data blocks ⟨d.stream.alignTo Writer.dataAlignment,
        { d.layout with dataSize := stop - d.layout.dataOffset }⟩ :=
      hb.relabel (fun _ => rfl) hle ⟨fun _ _ _ _ => rfl, fun _ _ ho => ho, fun _ _ => rfl,
        fun _ => ⟨rfl, rfl⟩, fun _ => rfl⟩ ⟨fun _ _ => rfl, fun _ => rfl, by simp⟩
    obtain ⟨hdvd, hdata, hopened⟩ := hb.opened (by simp)
    have hsum : d.layout.dataOffset.toNat + (stop - d.layout.dataOffset).toNat =
        alignUp d.stream.length Writer.dataAlignment := by
      have hge := le_alignUp d.stream.length hk
      rw [hpos] at hstop
      rw [UInt32.toNat_sub_of_le _ _ (UInt32.le_iff_toNat_le.mpr (by omega))]
      omega
    refine ⟨blocks, { hb' with
      heads := by simp
      opened := fun _ => hb'.opened (by simp)
      closed := fun _ => ?_ }⟩
    change _ ∣ d.layout.dataOffset.toNat + (stop - d.layout.dataOffset).toNat ∧ _
    refine ⟨by rw [hsum]; exact dvd_alignUp .., fun b hmem _ => ?_⟩
    change b.stop ≤ d.layout.dataOffset.toNat + (stop - d.layout.dataOffset).toNat
    rw [hsum]
    exact Nat.le_trans (hb.within b hmem).2 (le_alignUp _ hk)
  · obtain ⟨hpos, hlen⟩ := Stream.alignTo_atEnd (hend (Nat.lt_of_le_of_lt hle hlt)) hk
    rw [hpos, hlen]

/-- Storing the map list behind everything else, and closing the data section. -/
theorem writeMapList
    (h : State g parts todo (Section.Named g Section.dataSections) .data d)
    (hitems : ∀ s r, parts (.item s r) → g.Emitted s r)
    (hhidden : g.hiddenapi.isSome → parts .hiddenapi) (hnew : ¬ parts .mapList)
    (htodo : ¬ todo .mapList) :
    Writer.Establishes (.relayout g) Error.Other Writer.writeMapList (fun _ d' =>
      State g (fun p => parts p ∨ p = .mapList) todo (Section.Named g Section.dataSections) .closed
        d' ∧ d'.AtEnd) d := by
  have hoffsets : (Job.relayout g).options.computeOffsets = true := rfl
  have hk : 0 < Writer.dataAlignment := by decide
  unfold Writer.writeMapList
  rw [Writer.establishes_bind, Writer.establishes_computesOffsets, hoffsets, if_pos rfl]
  simp only [if_true, Writer.establishes_bind, Writer.establishes_changeStream,
    Writer.establishes_tell, Writer.establishes_ofExcept, Writer.establishes_changeLayout,
    Writer.establishes_read, Writer.establishes_get, Writer.establishes_computesOffsets, hoffsets]
  refine ⟨fun offset hoffset => ⟨fun list hlist => ⟨fun bytes hbytes => ⟨fun stop hstop => ?_,
    fun e he => not_lacksOffset_of_toWord he⟩, fun e he => ?_⟩,
    fun e he => h.mapListOf_complete hitems hhidden he⟩, fun e he => not_lacksOffset_of_toWord he⟩
  swap
  · simp only [MapList.encode, Except.bind_eq_error_iff, Except.pure_ne_error, and_false,
      exists_false, or_false] at he
    exact not_lacksOffset_of_toWord he
  rw [toWord_eq_ok_iff] at hoffset hstop
  have hseek := h.seek d.stream.length
  have hatEnd := @Stream.alignTo_atEnd (d.stream.seek d.stream.length) rfl _ hk
  rw [hatEnd.1] at hoffset
  have hkeeps : d.layout.Keeps g parts { d.layout with mapOffset := offset } :=
    ⟨fun _ _ _ _ => rfl, fun _ _ ho => ho, fun _ _ => rfl, fun hp => absurd hp hnew, fun _ => rfl⟩
  let stream := ((d.stream.seek d.stream.length).alignTo Writer.dataAlignment).write bytes
  have hpush : State g (fun p => parts p ∨ p = .mapList) todo
      (Section.Named g Section.dataSections) .data ⟨stream, { d.layout with mapOffset := offset }⟩ ∧
      Draft.AtEnd ⟨stream, { d.layout with mapOffset := offset }⟩ := by
    refine hseek.push (fun _ => rfl) (Stream.puts_write (hatEnd.2 ▸ le_alignUp _ hk)
      (fun _ => hatEnd) fun _ => rfl) hk dvd_rfl hnew (by simp [Layout.Assigned, Layout.place])
      (fun _ => rfl) (by simp) hkeeps ⟨fun _ _ => rfl, fun _ => rfl, fun _ => rfl⟩
      (by simp [Part.IsHead]) (by simp) (by simp) (by rintro _ _ _ _ _ - ⟨⟩) (fun _ _ => Iff.rfl)
      (fun ht => absurd ht htodo) ?_
    rintro - - hfree b rfl
    refine ⟨?_, fun _ => ⟨.ofBytes bytes, ⟨list, bytes, hlist, hbytes, rfl⟩, by simp, fun i _ =>
      Stream.byteAt?_write_atEnd hatEnd.1 hk (fun _ => rfl) hfree i⟩⟩
    change offset = (alignUp d.stream.length Writer.dataAlignment).toUInt32
    change alignUp d.stream.length Writer.dataAlignment = offset.toNat at hoffset
    rw [hoffset, Nat.toUInt32_eq, UInt32.ofNat_toNat]
  exact hpush.1.closeData hpush.2 hstop

/-! ## The link data -/

/-- Storing the link data behind the data section. -/
theorem writeLinkData (h : State g parts todo named .closed d) (hend : d.AtEnd)
    (hnew : ¬ parts .linkData) (htodo : ¬ todo .linkData) :
    Writer.Establishes (.relayout g) Error.Other Writer.writeLinkData (fun _ d' =>
      State g (fun p => parts p ∨ p = .linkData ∧ g.linkData.size ≠ 0) todo named .closed d' ∧
        d'.AtEnd) d := by
  have hoffsets : (Job.relayout g).options.computeOffsets = true := rfl
  have hkeeps (offset : UInt32) :
      d.layout.Keeps g parts { d.layout with linkOffset := offset } :=
    ⟨fun _ _ _ _ => rfl, fun _ _ ho => ho, fun _ _ => rfl, fun _ => ⟨rfl, rfl⟩,
      fun hp => absurd hp hnew⟩
  unfold Writer.writeLinkData
  rw [Writer.establishes_bind, Writer.establishes_read, Writer.establishes_ite]
  constructor
  · intro hempty
    have hsize : g.linkData.size = 0 := by simpa [Job.relayout] using hempty
    simp only [Writer.establishes_bind, Writer.establishes_computesOffsets, hoffsets, if_true,
      Writer.establishes_changeLayout, Writer.establishes_pure]
    have hstate : State g parts todo named .closed { d with
        layout := { d.layout with linkOffset := 0 } } :=
      h.relabel (fun _ => rfl) le_rfl rfl rfl (hkeeps 0)
        ⟨fun _ _ => rfl, fun _ => rfl, fun _ => rfl⟩
    exact ⟨hstate.congr (by simp [hsize]) (fun _ _ => Iff.rfl) (fun _ => Iff.rfl), hend⟩
  · intro hempty
    have hsize : g.linkData.size ≠ 0 := by simpa [Job.relayout] using hempty
    simp only [Writer.establishes_bind, Writer.establishes_computesOffsets, hoffsets, if_true,
      Writer.establishes_changeLayout, Writer.establishes_tell, Writer.establishes_ofExcept,
      Writer.establishes_changeStream, hsize, ne_eq, not_false_eq_true, and_true]
    refine ⟨fun offset hoffset => ?_, fun e he => not_lacksOffset_of_toWord he⟩
    rw [toWord_eq_ok_iff] at hoffset
    have hone (n : Nat) : alignUp n 1 = n := by simp [alignUp]
    refine h.push hend (Stream.puts_write (k := 1) le_rfl (fun h => by rw [hone]; exact ⟨h, rfl⟩)
      fun _ => rfl) one_pos dvd_rfl hnew (by simp [Layout.Assigned, Layout.place])
      (fun _ => rfl) (by simp) (hkeeps offset) ⟨fun _ _ => rfl, fun _ => rfl, fun _ => rfl⟩
      (by simp [Part.IsHead]) (fun _ => rfl) (by simp) (by rintro _ _ _ _ _ - ⟨⟩) (fun _ _ => Iff.rfl)
      (fun ht => absurd ht htodo) ?_
    rintro hpos - hfree b rfl
    refine ⟨⟨?_, by rfl, hsize⟩, fun _ => ⟨.ofBytes g.linkData, rfl, by simp [Job.relayout],
      fun i _ => Stream.byteAt?_write_atEnd (by rw [hone, hpos]) one_pos (fun _ => rfl) hfree i⟩⟩
    change offset = (alignUp d.stream.length 1).toUInt32
    rw [hone, ← hpos, hoffset, Nat.toUInt32_eq, UInt32.ofNat_toNat]

end State

end DexGraph
