import DexGraph.Proofs.Writing.Tables

/-!
# Data items of a fresh image

Data items go behind everything that has been placed so far. `State.push` is the one lemma about
this: it puts a new part at the end of the output, filled or as room that is filled in later. From it
follow the loops over the items of a section (`State.writeItems`), and the two passes over the
bodies (`State.reserveCode` and `State.writeCode`).
-/

namespace DexGraph

namespace Stream

/-- The output `s'` is `s` with `size` more positions behind the next multiple of `k`, where
something may have been stored. -/
structure Puts (s : Stream) (k size : Nat) (s' : Stream) : Prop where
  length_le : s.length ≤ s'.length
  position_eq : s.position = s.length → s'.position = alignUp s.length k + size
  length_eq : s.position = s.length → s'.length = alignUp s.length k + size
  byteAt?_eq : s.position = s.length → ∀ i,
    ¬ (alignUp s.length k ≤ i ∧ i < alignUp s.length k + size) → s'.byteAt? i = s.byteAt? i

variable {s : Stream} {k : Nat}

theorem puts_skip (hk : 0 < k) (n : Nat) : s.Puts k n ((s.alignTo k).skip n) where
  length_le := by
    simp only [alignTo, length_skip]
    omega
  position_eq h := by rw [position_skip, (alignTo_atEnd h hk).1]
  length_eq h := by
    rw [length_skip, (alignTo_atEnd h hk).1, (alignTo_atEnd h hk).2]
    omega
  byteAt?_eq _ i _ := by rw [byteAt?_skip, byteAt?_alignTo]

theorem puts_append (hk : 0 < k) {item : Stream} (hitem : item.Tight) :
    s.Puts k item.length (s.alignTo k ++ item) where
  length_le := by
    simp only [alignTo, length_append, length_skip]
    omega
  position_eq h := by rw [position_append, (alignTo_atEnd h hk).1, hitem.position_eq]
  length_eq h := by
    rw [length_append, (alignTo_atEnd h hk).1, (alignTo_atEnd h hk).2]
    omega
  byteAt?_eq h i hi := by
    rw [byteAt?_append, (alignTo_atEnd h hk).1, byteAt?_alignTo]
    split
    · rename_i hle
      cases hb : item.byteAt? (i - alignUp s.length k) with
      | none => rw [Option.none_or]
      | some b =>
        have := hitem.lt_length _ b hb
        omega
    · rw [Option.none_or]

/-- What has been put down can be read off the output. -/
theorem byteAt?_append_atEnd (h : s.position = s.length) (hk : 0 < k) {item : Stream}
    (hfree : ∀ i, s.length ≤ i → s.byteAt? i = none) (i : Nat) :
    (s.alignTo k ++ item).byteAt? (alignUp s.length k + i) = item.byteAt? i := by
  have := le_alignUp s.length hk
  rw [byteAt?_append, (alignTo_atEnd h hk).1, if_pos (by omega), byteAt?_alignTo,
    hfree _ (by omega), Option.or_none, Nat.add_sub_cancel_left]

end Stream

variable {g : Graph} {parts todo : Part → Prop} {named : Section → Prop} {stage : Stage}
  {d d' : Draft} {s : Section}

theorem Progress.byteAt?_eq_none {blocks : List Block}
    (h : Progress g parts todo stage blocks d) {i : Nat} (hi : d.stream.length ≤ i) :
    d.stream.byteAt? i = none := by
  cases hb : d.stream.byteAt? i with
  | none => rfl
  | some v =>
    obtain ⟨b, hmem, -, hlt⟩ := h.covered i v hb
    have := (h.within b hmem).2
    omega

namespace State

/-- A new part is put behind all others: either as room that stays blank for now, or filled. -/
theorem push (h : State g parts todo named stage d) (hend : d.AtEnd) {p : Part} {k size : Nat}
    {todo' : Part → Prop} (hputs : d.stream.Puts k size d'.stream) (hk : 0 < k)
    (halign : p.alignment ∣ k) (hnew : ¬ parts p)
    (hassigned : ∀ s r, d'.layout.Assigned s r ↔ d.layout.Assigned s r ∨ Part.item s r = p)
    (hsection : ∀ s, d'.layout.sectionOffset s = d.layout.sectionOffset s)
    (hhidden : (∃ o, d'.layout.hiddenapi.offset = some o) ↔
      (∃ o, d.layout.hiddenapi.offset = some o) ∨ Part.hiddenapi = p)
    (hkeeps : d.layout.Keeps g parts d'.layout) (hframe : d.layout.SameFrame stage d'.layout)
    (hhead : p.IsHead ↔ stage = .tables) (hlink : stage = .closed → p = .linkData)
    (hitem : ∀ s r, p = .item s r → s.rowSize? = none ∧ ¬ named s)
    (hturn : ∀ q, parts q → q.InTurn g p)
    (htodo : ∀ q, parts q → (todo' q ↔ todo q))
    (hblank : todo' p → ∀ i, d'.stream.byteAt? i = d.stream.byteAt? i)
    (hblock : d.stream.position = d.stream.length → alignUp d.stream.length k + size < 2 ^ 32 →
      (∀ i, d.stream.length ≤ i → d.stream.byteAt? i = none) →
      ∀ b : Block, b = ⟨p, alignUp d.stream.length k, alignUp d.stream.length k + size⟩ →
        b.Recorded g d'.layout ∧ (¬ todo' p → b.Filled g d')) :
    State g (fun q => parts q ∨ q = p) todo' named stage d' ∧ d'.AtEnd := by
  have hlt' (hlt : d'.stream.length < 2 ^ 32) : d.stream.position = d.stream.length :=
    hend (Nat.lt_of_le_of_lt hputs.length_le hlt)
  refine ⟨⟨fun s hs r => ?_, fun s hs hp r => ?_, fun s => ?_, ?_, fun hlt => ?_⟩, fun hlt => ?_⟩
  · rw [hassigned, h.assigned_iff s hs]
  · rw [hassigned, not_or]
    refine ⟨h.rows s hs (fun hp' => hp (.inl hp')) r, fun heq => hs (hitem s r heq.symm).1⟩
  · rw [hsection]
    exact h.named_iff s
  · rw [hhidden, h.hiddenapi_iff]
  · have hpos := hlt' hlt
    obtain ⟨blocks, hb⟩ := h.progress (Nat.lt_of_le_of_lt hputs.length_le hlt)
    have hfree (i : Nat) (hi : d.stream.length ≤ i) := hb.byteAt?_eq_none hi
    obtain ⟨hrec, hfill⟩ := hblock hpos (hputs.length_eq hpos ▸ hlt) hfree _ rfl
    refine ⟨_, hb.push hnew (le_alignUp _ hk) (Nat.le_add_right ..)
      (halign.trans (dvd_alignUp ..)) (hputs.length_eq hpos).ge (hputs.byteAt?_eq hpos) hkeeps
      hframe hrec hhead hlink (fun s r hp => ?_) hturn htodo (fun ht i h₁ _ => ?_) hfill⟩
    · rw [hsection, Option.eq_none_iff_forall_not_mem]
      exact fun o ho => (hitem s r hp).2 ((h.named_iff s).mp ⟨o, ho⟩)
    · rw [hblank ht i]
      exact hfree i (Nat.le_trans (le_alignUp _ hk) h₁)
  · rw [hputs.position_eq (hlt' hlt), hputs.length_eq (hlt' hlt)]

end State

/-! ## The items of a section -/

namespace Layout

variable (l : Layout)

theorem assigned_setPlace {r : Ref s} {o size : UInt32} (t : Section) (r' : Ref t) :
    (l.setPlace r ⟨some o, size⟩).Assigned t r' ↔
      l.Assigned t r' ∨ Part.item t r' = .item s r := by
  by_cases hst : s = t
  · subst hst
    by_cases hr : r = r'
    · subst hr
      simp [Assigned]
    · rw [Assigned, place_setPlace, if_neg hr, Assigned, or_iff_left]
      rintro ⟨⟩
      exact hr rfl
  · rw [Assigned, place_setPlace_of_ne _ hst, Assigned, or_iff_left]
    rintro ⟨⟩
    exact hst rfl

theorem keeps_setPlace {r : Ref s} (hr : ¬ l.Assigned s r) (p : Place)
    (hmap : ¬ parts .mapList) : l.Keeps g parts (l.setPlace r p) where
  place t r' o ho := by
    by_cases hst : s = t
    · subst hst
      rw [place_setPlace, if_neg]
      rintro rfl
      exact hr ⟨o, ho⟩
    · rw [place_setPlace_of_ne _ hst]
  section_some t o ho := by rwa [sectionOffset_setPlace]
  hiddenapi _ _ := rfl
  mapList hp := absurd hp hmap
  linkData _ := rfl

theorem sameFrame_setPlace (r : Ref s) (p : Place) : l.SameFrame stage (l.setPlace r p) :=
  ⟨fun _ _ => l.sectionOffset_setPlace r p, fun _ => rfl, fun _ => rfl⟩

end Layout

/-- Going to where the next item is to be stored. -/
theorem Writer.establishes_place {k : Nat} {o : Option UInt32} {subject : Unplaced}
    {Q : UInt32 → Draft → Prop}
    (h : ∀ start : UInt32, (d.stream.alignTo k).position = start.toNat →
      Q start { d with stream := d.stream.alignTo k }) :
    Establishes (.relayout g) Error.Other (place o k subject) Q d := by
  have hoffsets : (Job.relayout g).options.computeOffsets = true := rfl
  unfold place
  rw [establishes_bind, establishes_computesOffsets, hoffsets, if_pos rfl]
  simp only [establishes_bind, establishes_changeStream, establishes_tell, establishes_ofExcept]
  exact ⟨fun start hstart => h start (toWord_eq_ok_iff.mp hstart),
    fun e he => not_lacksOffset_of_toWord he⟩

/-- The image of an entity, taken anywhere in what a layout grows into, has one size. -/
theorem Section.length_encode_eq {l l' l'' : Layout} {x : s.Content} {item item' : Stream}
    (h : s.encode l x = .ok item) (hl : l.Extends l') (hl' : l'.Extends l'')
    (h' : s.encode l'' x = .ok item') : item'.length = item.length := by
  have heq := (encode_mono (hl.trans hl') h).symm.trans h'
  cases heq
  rfl

namespace State

/-- Storing one data item behind all others. -/
theorem writeItem (hs : s.rowSize? = none) {encode : Layout → s.Content → Except Error Stream}
    (hencode : ∀ l x, encode l x = s.encode l x) (h : State g parts todo named .data d)
    (hend : d.AtEnd) {r : Ref s} (hr : g.Has s r) (hnew : ¬ parts (.item s r))
    (hmap : ¬ parts .mapList) (hnamed : ¬ named s) (htodo : ¬ todo (.item s r))
    (hturn : ∀ r', parts (.item s r') → g.Lists r' r)
    (hrefs : ∀ x, g.get? r = some x → s.AllOffsets d.layout.Assigned x) (first : UInt32) :
    Writer.Establishes (.relayout g) Error.Other (Writer.writeItem s encode first r)
      (fun first' d' => (State g (fun p => parts p ∨ p = .item s r) todo named .data d' ∧
        d'.AtEnd) ∧ d.layout.Extends d'.layout ∧
          ∃ start, (d'.layout.place r).offset = some start ∧ first' = min first start) d := by
  obtain ⟨x, hx⟩ := Graph.has_iff_exists.mp hr
  have hfree : ¬ d.layout.Assigned s r := fun ha => hnew ((h.assigned_iff s hs r).mp ha)
  have hext (p : Place) : d.layout.Extends (d.layout.setPlace r p) :=
    Layout.extends_setPlace (Option.eq_none_iff_forall_not_mem.mpr fun o ho => hfree ⟨o, ho⟩) p
  rw [Writer.writeItem, Writer.establishes_bind, Writer.establishes_read]
  simp only [Job.relayout, hx]
  rw [Writer.establishes_bind, Writer.establishes_get, Writer.establishes_bind]
  refine Writer.establishes_place fun start hstart => ?_
  simp only [Writer.establishes_bind, Writer.establishes_get, Writer.establishes_ofExcept,
    Writer.establishes_changeStream, Writer.establishes_tell, Writer.establishes_changeLayout,
    Writer.establishes_pure, hencode]
  refine ⟨fun item hitem => ⟨fun size hsize => ⟨?_, hext _, start, by simp, rfl⟩,
    fun e he => not_lacksOffset_of_toWord he⟩,
    fun e he => Section.not_lacksOffset_of_encode (hrefs x hx) he⟩
  have htight := Section.tight_of_encode hitem
  have hsize : item.length = size.toNat := by
    rw [toWord_eq_ok_iff, Stream.position_append, hstart] at hsize
    have := htight.position_eq
    omega
  refine h.push hend (Stream.puts_append s.alignment_pos htight) s.alignment_pos dvd_rfl hnew
    (fun t r' => d.layout.assigned_setPlace t r') (fun _ => Layout.sectionOffset_setPlace ..)
    (by simp [Layout.setPlace, Layout.modifyPlace]) (d.layout.keeps_setPlace hfree _ hmap)
    (d.layout.sameFrame_setPlace ..) (by simp [Part.IsHead]) (by simp) ?_ ?_ (fun _ _ => Iff.rfl)
    (fun ht => absurd ht htodo) ?_
  · rintro _ _ ⟨⟩
    exact ⟨hs, hnamed⟩
  · rintro _ hq _ r' _ rfl ⟨⟩
    exact hturn r' hq
  · rintro hpos - hfree' b rfl
    rw [(Stream.alignTo_atEnd hpos s.alignment_pos).1] at hstart
    refine ⟨⟨hs, ?_, x, hx, fun l' item' hl' hitem' => ?_⟩, fun _ =>
      ⟨item, ⟨x, hx, Section.encode_mono (hext _) hitem⟩, by simp, fun i _ => ?_⟩⟩
    · simp [hstart, hsize]
    · rw [Section.length_encode_eq hitem (hext _) hl' hitem']
      simp
    · exact Stream.byteAt?_append_atEnd hpos s.alignment_pos hfree' i

/-- A section of data items gets the least of their offsets. -/
theorem nameSection (hs : s.rowSize? = none) (h : State g parts todo named stage d)
    (hmap : ¬ parts .mapList) {first : UInt32} (hnamed : ¬ named s)
    (hfirst : ∃ r, parts (.item s r) ∧ (d.layout.place r).offset = some first)
    (hleast : ∀ (r : Ref s) o, (d.layout.place r).offset = some o → first ≤ o) :
    State g parts todo (fun t => named t ∨ t = s) stage
      { d with layout := d.layout.setSectionOffset s (some first) } where
  assigned_iff t ht r := by
    rw [Layout.Assigned, Layout.place_setSectionOffset]
    exact h.assigned_iff t ht r
  rows t ht hp r := by
    rw [Layout.Assigned, Layout.place_setSectionOffset]
    exact h.rows t ht hp r
  named_iff t := by
    rw [Layout.sectionOffset_setSectionOffset]
    by_cases hts : s = t
    · subst hts
      simp
    · rw [if_neg hts, h.named_iff t, or_iff_left (Ne.symm hts)]
  hiddenapi_iff := h.hiddenapi_iff
  progress hlt := by
    obtain ⟨blocks, hb⟩ := h.progress hlt
    have hkeeps : d.layout.Keeps g parts (d.layout.setSectionOffset s (some first)) := by
      refine ⟨fun t r _ _ => d.layout.place_setSectionOffset _ r, fun t o ho => ?_, fun _ _ => rfl,
        fun hp => absurd hp hmap, fun _ => rfl⟩
      rw [Layout.sectionOffset_setSectionOffset, if_neg, ho]
      rintro rfl
      exact hnamed ((h.named_iff s).mp ⟨o, ho⟩)
    refine ⟨blocks, { hb with
      recorded := fun b hmem => (hb.recorded b hmem).keeps hkeeps (hb.part_mem hmem)
      filled := fun b hmem ht =>
        hb.filled_of_same hkeeps hmem (fun _ _ _ => rfl) (hb.filled b hmem ht)
      least := fun t ht o ho => ?_ }⟩
    rw [Layout.sectionOffset_setSectionOffset] at ho
    by_cases hts : s = t
    · subst hts
      rw [if_pos rfl] at ho
      cases ho
      have hstart {r : Ref s} {o : UInt32} {b : Block} (hmem : b ∈ blocks) (hp : b.part = .item s r)
          (ho : (d.layout.place r).offset = some o) : b.start = o.toNat := by
        have hrec := hb.recorded b hmem
        have := hb.within b hmem
        simp only [Block.Recorded, hp] at hrec
        rw [hrec.2.1] at ho
        cases ho
        change d.stream.length < 2 ^ 32 at hlt
        rw [toNat_toUInt32 (by omega)]
      obtain ⟨r, hr, ho⟩ := hfirst
      obtain ⟨b, hmem, hp⟩ := (hb.parts_iff _).mp hr
      refine ⟨⟨b, hmem, hstart hmem hp ho, r, hp⟩, fun b' hmem' r' hp' => ?_⟩
      obtain ⟨o', ho'⟩ := (h.assigned_iff s hs r').mpr (hp' ▸ hb.part_mem hmem')
      rw [hstart hmem' hp' ho']
      exact UInt32.le_iff_toNat_le.mp (hleast r' o' ho')
    · rw [if_neg hts] at ho
      exact hb.least t ht o ho

end State

theorem toNat_min (a b : UInt32) : (min a b).toNat = min a.toNat b.toNat := by
  have hmin : min a b = if a ≤ b then a else b := rfl
  rw [hmin]
  split
  · rename_i h
    exact (min_eq_left (UInt32.le_iff_toNat_le.mp h)).symm
  · rename_i h
    exact (min_eq_right (Nat.le_of_not_le fun h' => h (UInt32.le_iff_toNat_le.mpr h'))).symm

/-- The least offset of the entities that have been placed so far, or the greatest number if none
has been. -/
structure Layout.LeastOf (l : Layout) (placed : List (Ref s)) (first : UInt32) : Prop where
  empty : placed = [] → first = 0xFFFFFFFF
  mem : placed ≠ [] → ∃ r ∈ placed, (l.place r).offset = some first
  le : ∀ r ∈ placed, ∃ o, (l.place r).offset = some o ∧ first ≤ o

theorem Layout.LeastOf.concat {l l' : Layout} {placed : List (Ref s)} {first start : UInt32}
    (h : l.LeastOf placed first) (hl : l.Extends l') {r : Ref s}
    (hr : (l'.place r).offset = some start) : l'.LeastOf (placed ++ [r]) (min first start) := by
  have hmin := toNat_min first start
  refine ⟨fun h => absurd h (by simp), fun _ => ?_, fun r' hr' => ?_⟩
  · by_cases hle : start ≤ first
    · have heq : min first start = start := UInt32.toNat_inj.mp (by
        have := UInt32.le_iff_toNat_le.mp hle
        omega)
      exact ⟨r, by simp, by rw [heq, hr]⟩
    · have heq : min first start = first := UInt32.toNat_inj.mp (by
        have := UInt32.le_iff_toNat_le.not.mp hle
        omega)
      have hne : placed ≠ [] := by
        intro hnil
        refine hle (UInt32.le_iff_toNat_le.mpr ?_)
        rw [h.empty hnil]
        exact Nat.le_of_lt_succ start.toNat_lt
      obtain ⟨r₀, hr₀, ho⟩ := h.mem hne
      exact ⟨r₀, by simp [hr₀], by rw [heq, hl s r₀ _ ho]⟩
  · rcases List.mem_append.mp hr' with hr' | hr'
    · obtain ⟨o, ho, hle⟩ := h.le r' hr'
      refine ⟨o, hl s r' o ho, UInt32.le_iff_toNat_le.mpr ?_⟩
      have := UInt32.le_iff_toNat_le.mp hle
      omega
    · obtain rfl := List.mem_singleton.mp hr'
      refine ⟨start, hr, UInt32.le_iff_toNat_le.mpr ?_⟩
      omega

namespace State

/-- Storing data items of a section one behind the other. -/
theorem writeItems (hg : g.Sound) (hs : s.rowSize? = none) {encode : Layout → s.Content → Except Error Stream}
    (hencode : ∀ l x, encode l x = s.encode l x) (h : State g parts todo named .data d)
    (hend : d.AtEnd) {refs : Array (Ref s)}
    (hsub : refs.toList.Sublist (g.entities s).order.toList) (hhas : ∀ r ∈ refs, g.Has s r) (hnew : ∀ r, ¬ parts (.item s r)) (hmap : ¬ parts .mapList)
    (hnamed : ¬ named s) (htodo : ∀ r, ¬ todo (.item s r))
    (hrefs : ∀ r ∈ refs, ∀ x, g.get? r = some x → s.AllOffsets d.layout.Assigned x) :
    Writer.Establishes (.relayout g) Error.Other (Writer.writeItems s refs encode) (fun _ d' =>
      State g (fun p => parts p ∨ ∃ r ∈ refs, p = .item s r) todo
        (fun t => named t ∨ t = s ∧ refs.size ≠ 0) .data d' ∧ d'.AtEnd) d := by
  have hnodup : refs.toList.Nodup := (hg.coherent s).nodup_order.sublist hsub
  unfold Writer.writeItems
  rw [Writer.establishes_ite]
  refine ⟨fun hempty => ?_, fun hempty => ?_⟩
  · obtain rfl := Array.isEmpty_iff.mp hempty
    exact ⟨h.congr (by simp) (fun _ _ => Iff.rfl) (by simp), hend⟩
  have hloop : Writer.Establishes (.relayout g) Error.Other
      (refs.toList.foldlM (Writer.writeItem s encode) 0xFFFFFFFF) (fun first d' =>
        (State g (fun p => parts p ∨ ∃ r ∈ refs.toList, p = .item s r) todo named .data d' ∧
          d'.AtEnd) ∧ d.layout.Extends d'.layout ∧ d'.layout.LeastOf refs.toList first) d := by
    refine Writer.establishes_foldlM (I := fun done first d' =>
      (State g (fun p => parts p ∨ ∃ r ∈ done, p = .item s r) todo named .data d' ∧
        d'.AtEnd) ∧ d.layout.Extends d'.layout ∧ d'.layout.LeastOf done first) ?_
      ⟨⟨h.congr (by simp) (fun _ _ => Iff.rfl) (fun _ => Iff.rfl), hend⟩, .refl _,
        fun _ => rfl, by simp, by simp⟩
    rintro done r rest first d' hsplit ⟨⟨h', hend'⟩, hext, hleast⟩
    have hmem : r ∈ refs := by simp [← Array.mem_toList_iff, hsplit]
    have hfresh : r ∉ done := by
      rw [hsplit] at hnodup
      exact fun hr => (List.nodup_append.mp hnodup).2.2 r hr r List.mem_cons_self rfl
    refine (h'.writeItem hs hencode hend' (hhas r hmem) ?_ ?_ hnamed (htodo r) (fun r' hr' => ?_) ?_
      first).mono ?_
    · simpa [hnew] using hfresh
    · simpa using hmap
    · have hdone : r' ∈ done := by simpa [hnew] using hr'
      exact (sublist_pair_of_split hsplit hdone).trans hsub
    · exact fun x hx => (hrefs r hmem x hx).mono fun t _ r' hr' => hext.assigned hr'
    · rintro first' d'' ⟨⟨h'', hend''⟩, hext', start, hstart, rfl⟩
      refine ⟨⟨h''.congr (fun p => ?_) (fun _ _ => Iff.rfl) (fun _ => Iff.rfl), hend''⟩,
        hext.trans hext', hleast.concat hext' hstart⟩
      simp only [List.mem_append, List.mem_singleton, or_and_right, exists_or, exists_eq_left,
        or_assoc]
  rw [← Array.foldlM_toList]
  refine hloop.bind ?_
  rintro first d' ⟨⟨h', hend'⟩, _, hleast⟩
  have hoffsets : (Job.relayout g).options.computeOffsets = true := rfl
  rw [Writer.establishes_bind, Writer.establishes_computesOffsets, hoffsets]
  simp only [Writer.establishes_bind, Writer.establishes_get, Bool.true_or, if_true,
    Writer.establishes_changeLayout]
  have hne : refs.toList ≠ [] := by simpa using hempty
  obtain ⟨r, hr, ho⟩ := hleast.mem hne
  have hname := h'.nameSection hs (by simpa using hmap) hnamed
    ⟨r, .inr ⟨r, hr, rfl⟩, ho⟩ fun r' o ho' => ?_
  · refine ⟨hname.congr (by simp) (fun _ _ => Iff.rfl) (fun t => ?_), hend'⟩
    simp only [Array.isEmpty_iff] at hempty
    simp [hempty]
  · have hp := (h'.assigned_iff s hs r').mp ⟨o, ho'⟩
    simp only [hnew, false_or, Part.item.injEq, heq_eq_eq, true_and, exists_eq_right'] at hp
    obtain ⟨o', ho'', hle⟩ := hleast.le r' hp
    rw [ho'] at ho''
    cases ho''
    exact hle

end State

end DexGraph
