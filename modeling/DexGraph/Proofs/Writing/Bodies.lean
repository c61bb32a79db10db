import DexGraph.Proofs.Writing.Items
import DexGraph.Proofs.Writing.Selection

/-!
# Bodies of a fresh image

The data section of a fresh image is written section by section. `Part.Placed g done` are the parts
that it has when the sections `done` have been placed, and `State.writeEmitted` takes the next one.
The bodies come in two passes: `State.reserveCode` sets room aside for them, and `State.writeCode`
fills them in when the debug info has been placed.
-/

namespace DexGraph

variable {g : Graph} {parts todo : Part → Prop} {named : Section → Prop} {stage : Stage}
  {d d' : Draft} {s : Section}

/-- The parts of an image whose tables and whose data sections `done` have been placed. -/
def Part.Placed (g : Graph) (done : List Section) : Part → Prop
  | .item s r => s ∈ done ∧ g.Emitted s r
  | p => p.InHead g

/-- The sections of such an image that are not empty. -/
def Section.Named (g : Graph) (done : List Section) (s : Section) : Prop :=
  Part.InHead g (.table s) ∨ s ∈ done ∧ ∃ r, g.Emitted s r

theorem Section.rowSize?_of_mem_offsetTargets {t : Section} (h : t ∈ s.offsetTargets) :
    t.rowSize? = none := by
  have hall : ∀ s : Section, ∀ t ∈ s.offsetTargets, t.rowSize? = none := by
    intro s
    cases s <;> decide
  exact hall s t h

namespace State

variable {done : List Section}

theorem not_named (hs : s.rowSize? = none) (hdone : s ∉ done) : ¬ s.Named g done := by
  rintro (h | h)
  · exact h.1 hs
  · exact hdone h.1

/-- Whatever an emitted entity names by offset has its offset when the sections in which it lies
have been placed. -/
theorem allOffsets_assigned (hg : g.Sound)
    (h : State g (Part.Placed g done) todo named stage d)
    (htargets : ∀ t ∈ s.offsetTargets, t ∈ done) {r : Ref s} (hr : g.Emitted s r) {x : s.Content}
    (hx : g.get? r = some x) : s.AllOffsets d.layout.Assigned x := by
  refine (hg.allOffsets_emitted hr hx).mono fun t ht r' hr' => ?_
  rw [h.assigned_iff t (Section.rowSize?_of_mem_offsetTargets ht)]
  exact ⟨htargets t ht, hr'⟩

/-- Placing the next section of data items. -/
theorem writeEmitted (hg : g.Sound) (hs : s.rowSize? = none)
    {encode : Layout → s.Content → Except Error Stream}
    (hencode : ∀ l x, encode l x = s.encode l x)
    (h : State g (Part.Placed g done) todo (Section.Named g done) .data d) (hend : d.AtEnd)
    {refs : Array (Ref s)} (hsub : refs.toList.Sublist (g.entities s).order.toList)
    (hrefs : ∀ r, r ∈ refs ↔ g.Emitted s r)
    (hdone : s ∉ done) (htargets : ∀ t ∈ s.offsetTargets, t ∈ done)
    (htodo : ∀ r, ¬ todo (.item s r)) :
    Writer.Establishes (.relayout g) Error.Other (Writer.writeItems s refs encode) (fun _ d' =>
      State g (Part.Placed g (s :: done)) todo (Section.Named g (s :: done)) .data d' ∧
        d'.AtEnd) d := by
  refine (h.writeItems hg hs hencode hend hsub (fun r hr => ((hrefs r).mp hr).has)
    (fun r hr => hdone hr.1) id (not_named hs hdone) htodo fun r hr x hx =>
    allOffsets_assigned hg h htargets ((hrefs r).mp hr) hx).mono ?_
  rintro _ d' ⟨h', hend'⟩
  refine ⟨h'.congr (fun p => ?_) (fun _ _ => Iff.rfl) (fun t => ?_), hend'⟩
  · cases p with
    | item t r =>
      by_cases hts : t = s
      · subst hts
        simp [Part.Placed, hrefs, hdone]
      · simp [Part.Placed, hts]
    | _ => simp [Part.Placed, Part.InHead]
  · have hsize : refs.size ≠ 0 ↔ ∃ r, g.Emitted s r := by
      rw [← Nat.pos_iff_ne_zero, Array.size_pos_iff_exists_mem]
      simp only [hrefs]
    by_cases hts : t = s
    · subst hts
      simp [Section.Named, hsize, hdone]
    · simp [Section.Named, hts]

end State

/-! ## The bodies that are written -/

/-- While no other entity of their section has an offset, exactly the bodies that are in use are
written. -/
theorem Writer.establishes_codeRefs_fresh {E : Error → Prop} (hg : g.Sound)
    (hplaced : ∀ r, d.layout.Assigned .codeItem r → g.Emitted .codeItem r) :
    Establishes (.relayout g) E codeRefs (fun refs d' =>
      d' = d ∧ refs.toList.Sublist (g.entities .codeItem).order.toList ∧
        ∀ r, r ∈ refs ↔ g.Emitted .codeItem r) d := by
  have h : Establishes (g.job .relayout) E codeRefs _ d := establishes_codeRefs hg
  refine h.mono ?_
  rintro refs d' ⟨rfl, hsub, hrefs⟩
  refine ⟨rfl, hsub, fun r => (hrefs r).trans (and_congr_right fun _ => ?_)⟩
  exact or_iff_left_of_imp fun h => (hplaced r h).2

/-- The debug info that is written belongs to the bodies that are in use. -/
theorem Writer.establishes_debugInfoRefs_fresh {E : Error → Prop} (hg : g.Sound)
    (hplaced : ∀ r, d.layout.Assigned .codeItem r → g.Emitted .codeItem r)
    (hfree : ∀ r, ¬ d.layout.Assigned .debugInfo r) :
    Establishes (.relayout g) E debugInfoRefs (fun refs d' =>
      d' = d ∧ refs.toList.Sublist (g.entities .debugInfo).order.toList ∧
        ∀ r, r ∈ refs ↔ g.Emitted .debugInfo r) d := by
  have h : Establishes (g.job .relayout) E debugInfoRefs _ d := establishes_debugInfoRefs hg
  refine h.mono ?_
  rintro refs d' ⟨rfl, hsub, hrefs⟩
  exact ⟨rfl, hsub, fun r => (hrefs r).trans
    (Graph.written_iff_emitted hplaced fun r hr => absurd hr (hfree r))⟩

namespace State

/-! ## Room for the bodies -/

/-- Setting room aside for one body behind everything else. -/
theorem reserveBody (h : State g parts todo named .data d) (hend : d.AtEnd)
    {r : Ref .codeItem} (hr : g.Has .codeItem r) (hnew : ¬ parts (.item .codeItem r))
    (hmap : ¬ parts .mapList) (hnamed : ¬ named .codeItem)
    (hturn : ∀ r', parts (.item .codeItem r') → g.Lists r' r) (first : Option UInt32) :
    Writer.Establishes (.relayout g) Error.Other (Writer.reserveBody first r)
      (fun first' d' => (State g (fun p => parts p ∨ p = .item .codeItem r)
          (fun p => todo p ∨ p = .item .codeItem r) named .data d' ∧ d'.AtEnd) ∧
        d.layout.Extends d'.layout ∧ ∃ start, (d'.layout.place r).offset = some start ∧
          first' = (first <|> some start) ∧ d.stream.position ≤ start.toNat ∧
            start.toNat ≤ d'.stream.position) d := by
  obtain ⟨code, hcode⟩ := Graph.has_iff_exists.mp hr
  have hfree : ¬ d.layout.Assigned .codeItem r := fun ha => hnew ((h.assigned_iff _ rfl r).mp ha)
  have hext (p : Place) : d.layout.Extends (d.layout.setPlace r p) :=
    Layout.extends_setPlace (Option.eq_none_iff_forall_not_mem.mpr fun o ho => hfree ⟨o, ho⟩) p
  unfold Writer.reserveBody
  rw [Writer.establishes_bind, Writer.establishes_read]
  simp only [Job.relayout, hcode]
  rw [Writer.establishes_bind, Writer.establishes_ofExcept]
  refine ⟨fun item hitem => ?_, fun e he => CodeItem.not_lacksOffset_of_encode he⟩
  rw [Writer.establishes_bind]
  refine Writer.establishes_place fun start hstart => ?_
  simp only [Writer.establishes_bind, Writer.establishes_changeStream,
    Writer.establishes_changeLayout, Writer.establishes_ofExcept, Writer.establishes_pure,
    Layout.setSize_setOffset]
  refine ⟨fun size hsize => ⟨?_, hext _, start, by simp, rfl, ?_, ?_⟩,
    fun e he => not_lacksOffset_of_toWord he⟩
  · have hsize := toWord_eq_ok_iff.mp hsize
    have hk := Section.alignment_pos .codeItem
    refine h.push hend (Stream.puts_skip hk _) hk dvd_rfl hnew
      (fun t r' => d.layout.assigned_setPlace t r') (fun _ => Layout.sectionOffset_setPlace ..)
      (by simp [Layout.setPlace, Layout.modifyPlace]) (d.layout.keeps_setPlace hfree _ hmap)
      (d.layout.sameFrame_setPlace ..) (by simp [Part.IsHead]) (by simp) ?_ ?_ (fun q hq => ?_)
      (fun _ i => rfl) ?_
    · rintro _ _ ⟨⟩
      exact ⟨rfl, hnamed⟩
    · rintro _ hq _ r' _ rfl ⟨⟩
      exact hturn r' hq
    · refine or_iff_left ?_
      rintro rfl
      exact hnew hq
    · rintro hpos - - b rfl
      rw [(Stream.alignTo_atEnd hpos hk).1] at hstart
      refine ⟨⟨rfl, ?_, code, hcode, fun l' item' hl' hitem' => ?_⟩, fun ht => absurd (.inr rfl) ht⟩
      · simp [hstart, hsize]
      · obtain ⟨o, -, hitem'⟩ := Except.bind_eq_ok_iff.mp hitem'
        obtain ⟨item₀, hitem₀, hlen⟩ := CodeItem.encode_with_offset hitem' 0
        rw [hitem] at hitem₀
        cases hitem₀
        simp [hlen]
  · rw [← hstart]
    simp [Stream.alignTo]
  · rw [← hstart]
    simp

/-- Setting room aside for the bodies that are in use. -/
theorem reserveCode (hg : g.Sound)
    (h : State g (Part.Placed g []) todo (Section.Named g []) .data d) (hend : d.AtEnd) :
    Writer.Establishes (.relayout g) Error.Other Writer.reserveCode (fun _ d' =>
      State g (Part.Placed g [.codeItem])
        (fun p => todo p ∨ ∃ r, p = .item .codeItem r) (Section.Named g [.codeItem]) .data d' ∧
        d'.AtEnd) d := by
  have hoffsets : (Job.relayout g).options.computeOffsets = true := rfl
  unfold Writer.reserveCode
  rw [Writer.establishes_bind, Writer.establishes_computesOffsets, hoffsets, if_pos rfl]
  refine (Writer.establishes_codeRefs_fresh hg fun r hr => ?_).bind ?_
  · obtain ⟨⟨⟩, -⟩ := (h.assigned_iff _ rfl r).mp hr
  rintro refs d₁ ⟨hd, hsub, hrefs⟩
  have hnodup : refs.toList.Nodup := (hg.coherent .codeItem).nodup_order.sublist hsub
  rw [hd, ← Array.foldlM_toList]
  have hloop : Writer.Establishes (.relayout g) Error.Other
      (refs.toList.foldlM Writer.reserveBody none) (fun first d' =>
        (State g (fun p => Part.Placed g [] p ∨ ∃ r ∈ refs.toList, p = .item .codeItem r)
          (fun p => todo p ∨ ∃ r ∈ refs.toList, p = .item .codeItem r) (Section.Named g []) .data
            d' ∧ d'.AtEnd) ∧ (first = none ↔ refs.toList = []) ∧
        d'.layout.LeastOf refs.toList (first.getD 0xFFFFFFFF) ∧
        ∀ o, first = some o → o.toNat ≤ d'.stream.position) d := by
    refine Writer.establishes_foldlM (I := fun done first d' =>
      (State g (fun p => Part.Placed g [] p ∨ ∃ r ∈ done, p = .item .codeItem r)
        (fun p => todo p ∨ ∃ r ∈ done, p = .item .codeItem r) (Section.Named g []) .data d' ∧
        d'.AtEnd) ∧ (first = none ↔ done = []) ∧ d'.layout.LeastOf done (first.getD 0xFFFFFFFF) ∧
      ∀ o, first = some o → o.toNat ≤ d'.stream.position) ?_
      ⟨⟨h.congr (by simp) (by simp) (fun _ => Iff.rfl), hend⟩, by simp,
        ⟨fun _ => rfl, by simp, by simp⟩, by simp⟩
    rintro done r rest first d' hsplit ⟨⟨h', hend'⟩, hnone, hleast, hle⟩
    have hmem : r ∈ refs := by simp [← Array.mem_toList_iff, hsplit]
    have hfresh : r ∉ done := by
      rw [hsplit] at hnodup
      exact fun hr => (List.nodup_append.mp hnodup).2.2 r hr r List.mem_cons_self rfl
    refine (h'.reserveBody hend' ((hrefs r).mp hmem).has (by simpa [Part.Placed] using hfresh)
      (by simp [Part.Placed, Part.InHead]) (not_named rfl (by simp)) (fun r' hr' => ?_) first).mono ?_
    · have hdone : r' ∈ done := by simpa [Part.Placed] using hr'
      exact (sublist_pair_of_split hsplit hdone).trans hsub
    rintro first' d'' ⟨⟨h'', hend''⟩, hext, start, hstart, rfl, hle₁, hle₂⟩
    have hfirst : (first <|> some start).getD 0xFFFFFFFF = min (first.getD 0xFFFFFFFF) start := by
      apply UInt32.toNat_inj.mp
      rw [toNat_min]
      cases first with
      | none =>
        have := start.toNat_lt
        change start.toNat = min 4294967295 start.toNat
        omega
      | some o =>
        have := hle o rfl
        change o.toNat = min o.toNat start.toNat
        omega
    refine ⟨⟨h''.congr (fun p => ?_) (fun p _ => ?_) (fun _ => Iff.rfl), hend''⟩, by simp, ?_, ?_⟩
    · simp only [List.mem_append, List.mem_singleton, or_and_right, exists_or, exists_eq_left,
        or_assoc]
    · simp only [List.mem_append, List.mem_singleton, or_and_right, exists_or, exists_eq_left,
        or_assoc]
    · rw [hfirst]
      exact hleast.concat hext hstart
    · intro o ho
      cases first with
      | none =>
        cases ho
        exact hle₂
      | some o' =>
        cases ho
        have := hle o rfl
        omega
  refine hloop.bind ?_
  rintro first d' ⟨⟨h', hend'⟩, hnone, hleast, -⟩
  have hparts (p : Part) : Part.Placed g [.codeItem] p ↔
      Part.Placed g [] p ∨ ∃ r ∈ refs.toList, p = .item .codeItem r := by
    cases p with
    | item t r =>
      by_cases ht : t = .codeItem
      · subst ht
        simp [Part.Placed, hrefs]
      · simp [Part.Placed, ht]
    | _ => simp [Part.Placed, Part.InHead]
  have htodo (p : Part) (hp : Part.Placed g [] p ∨ ∃ r ∈ refs.toList, p = .item .codeItem r) :
      (todo p ∨ ∃ r, p = .item .codeItem r) ↔ todo p ∨ ∃ r ∈ refs.toList, p = .item .codeItem r := by
    refine or_congr_right ⟨?_, ?_⟩
    · rintro ⟨r, rfl⟩
      simpa [Part.Placed] using hp
    · rintro ⟨r, _, hr⟩
      exact ⟨r, hr⟩
  have hnamed (t : Section) : Section.Named g [.codeItem] t ↔
      Section.Named g [] t ∨ t = .codeItem ∧ refs.toList ≠ [] := by
    have hne : refs.toList ≠ [] ↔ ∃ r, g.Emitted .codeItem r := by
      constructor
      · intro hne
        obtain ⟨r, hr⟩ := List.exists_mem_of_ne_nil _ hne
        exact ⟨r, (hrefs r).mp (Array.mem_toList_iff.mp hr)⟩
      · rintro ⟨r, hr⟩
        exact List.ne_nil_of_mem (Array.mem_toList_iff.mpr ((hrefs r).mpr hr))
    by_cases ht : t = .codeItem
    · subst ht
      simp [Section.Named, hne]
    · simp [Section.Named, ht]
  cases first with
  | none =>
    have hnil := hnone.mp rfl
    exact ⟨h'.congr hparts htodo fun t => by simp [hnamed, hnil], hend'⟩
  | some first =>
    have hne : refs.toList ≠ [] := fun h => absurd (hnone.mpr h) (by simp)
    obtain ⟨r, hr, ho⟩ := hleast.mem hne
    have hname := h'.nameSection (s := .codeItem) rfl (by simp [Part.Placed, Part.InHead])
      (not_named rfl (by simp)) ⟨r, .inr ⟨r, hr, rfl⟩, ho⟩ fun r' o ho' => ?_
    · exact ⟨hname.congr hparts htodo fun t => by simp [hnamed, hne], hend'⟩
    · have hp := (h'.assigned_iff _ rfl r').mp ⟨o, ho'⟩
      simp only [Part.Placed, List.not_mem_nil, false_and, false_or, Part.item.injEq, heq_eq_eq,
        true_and, exists_eq_right'] at hp
      obtain ⟨o', ho'', hle⟩ := hleast.le r' hp
      rw [ho'] at ho''
      cases ho''
      exact hle

/-! ## Filling in the bodies -/

/-- A step that places nothing and stores nothing. -/
theorem relabel (h : State g parts todo named stage d)
    (hbytes : ∀ i, d'.stream.byteAt? i = d.stream.byteAt? i)
    (hlen : d.stream.length ≤ d'.stream.length)
    (hsections : d'.layout.sections = d.layout.sections)
    (hhidden : d'.layout.hiddenapi = d.layout.hiddenapi)
    (hkeeps : d.layout.Keeps g parts d'.layout) (hframe : d.layout.SameFrame stage d'.layout) :
    State g parts todo named stage d' := by
  have hplace (s : Section) (r : Ref s) : d'.layout.place r = d.layout.place r := by
    rw [Layout.place, hsections, Layout.place]
  refine ⟨fun s hs r => ?_, fun s hs hp r => ?_, fun s => ?_, ?_, fun hlt => ?_⟩
  · rw [Layout.Assigned, hplace]
    exact h.assigned_iff s hs r
  · rw [Layout.Assigned, hplace]
    exact h.rows s hs hp r
  · rw [Layout.sectionOffset, hsections]
    exact h.named_iff s
  · rw [hhidden]
    exact h.hiddenapi_iff
  · obtain ⟨blocks, hb⟩ := h.progress (Nat.lt_of_le_of_lt hlen hlt)
    exact ⟨blocks, hb.relabel hbytes hlen hkeeps hframe⟩

/-- Moving the cursor stores nothing. -/
theorem seek (h : State g parts todo named stage d) (n : Nat) :
    State g parts todo named stage { d with stream := d.stream.seek n } :=
  h.relabel (fun _ => rfl) le_rfl rfl rfl (.refl _) (.refl ..)

/-- One body has been stored where room has been set aside for it. -/
private theorem fillBody (h : State g parts todo named stage d) {r : Ref .codeItem}
    {code : CodeItem} (hcode : g.get? r = some code) (hr : parts (.item .codeItem r))
    (htodo : todo (.item .codeItem r)) (hmap : ¬ parts .mapList) {o size : UInt32} (ho : (d.layout.place r).offset = some o)
    {item : Stream} (hitem : Section.encode d.layout .codeItem code = .ok item)
    (hsize : item.length = size.toNat)
    (hd' : d' = ⟨d.stream.seek o.toNat ++ item, d.layout.setSize r size⟩) :
    State g parts (fun p => todo p ∧ p ≠ .item .codeItem r) named stage d' ∧
      d.layout.Extends d'.layout ∧ d.stream.length ≤ d'.stream.length ∧
        (d'.stream.length < 2 ^ 32 → d'.stream.length = d.stream.length) := by
  have hext : d.layout.Extends d'.layout := by
    intro t r' o' ho'
    rw [hd', Layout.offset_place_setSize, ho']
  have hlength : d'.stream.length = max d.stream.length (o.toNat + item.length) := by
    rw [hd']
    rfl
  have htight := Section.tight_of_encode hitem
  -- The block of the body has just the size of its image.
  have hblock (hlt : d'.stream.length < 2 ^ 32) : ∃ blocks b, b ∈ blocks ∧
      Progress g parts todo stage blocks d ∧ b.part = .item .codeItem r ∧ b.start = o.toNat ∧
        b.stop = o.toNat + item.length ∧ b.stop ≤ d.stream.length ∧
          (d.layout.place r).size = size := by
    obtain ⟨blocks, hb⟩ := h.progress (by omega)
    obtain ⟨b, hmem, hp⟩ := (hb.parts_iff _).mp hr
    have hrec := hb.recorded b hmem
    have hwithin := hb.within b hmem
    simp only [Block.Recorded, hp] at hrec
    obtain ⟨-, hplace, x, hx, hlen⟩ := hrec
    rw [hcode] at hx
    cases hx
    have hlen := hlen d.layout item (.refl _) hitem
    rw [hplace] at ho
    cases ho
    have hstart : b.start.toUInt32.toNat = b.start := toNat_toUInt32 (by omega)
    refine ⟨blocks, b, hmem, hb, hp, by omega, by omega, hwithin.2, ?_⟩
    rw [hplace]
    apply UInt32.toNat_inj.mp
    rw [toNat_toUInt32 (by omega)]
    omega
  refine ⟨⟨fun t ht r' => ?_, fun t ht hp r' => ?_, fun t => ?_, ?_, fun hlt => ?_⟩, hext, by omega,
    fun hlt => ?_⟩
  · rw [hd', Layout.Assigned, Layout.offset_place_setSize]
    exact h.assigned_iff t ht r'
  · rw [hd', Layout.Assigned, Layout.offset_place_setSize]
    exact h.rows t ht hp r'
  · rw [hd', Layout.sectionOffset_setSize]
    exact h.named_iff t
  · rw [hd']
    exact h.hiddenapi_iff
  · obtain ⟨blocks, b, hmem, hb, hp, hstart, hstop, hle, hsame⟩ := hblock hlt
    have hkeeps : d.layout.Keeps g parts d'.layout := by
      refine ⟨fun t r' _ _ => ?_, fun t o ho => ?_, fun _ _ => ?_, fun hp => absurd hp hmap,
        fun _ => ?_⟩
      · rw [hd', d.layout.place_setSize_of_eq hsame]
      · rw [hd', Layout.sectionOffset_setSize, ho]
      · rw [hd']
        rfl
      · rw [hd']
        rfl
    have hframe : d.layout.SameFrame stage d'.layout := by
      rw [hd']
      exact ⟨fun t _ => Layout.sectionOffset_setSize .., fun _ => rfl, fun _ => rfl⟩
    have hbyte (i : Nat) : d'.stream.byteAt? i =
        (if o.toNat ≤ i then item.byteAt? (i - o.toNat) else none).or (d.stream.byteAt? i) := by
      rw [hd', Stream.byteAt?_append, Stream.position_seek, Stream.byteAt?_seek]
    refine ⟨blocks, hb.fill hmem (by omega) (fun i hi => ?_) hkeeps hframe (fun q => by rw [hp])
      ⟨item, ?_, by omega, fun i hi => ?_⟩⟩
    · rw [hbyte]
      split
      · rename_i hle'
        cases hv : item.byteAt? (i - o.toNat) with
        | none => rw [Option.none_or]
        | some v =>
          have := htight.lt_length _ v hv
          omega
      · rw [Option.none_or]
    · rw [hp]
      exact ⟨code, hcode, Section.encode_mono hext hitem⟩
    · have hblank := hb.blank b hmem (by rwa [hp]) (b.start + i) (by omega) (by omega)
      rw [hbyte, if_pos (by omega), hblank, Option.or_none]
      congr 1
      omega
  · obtain ⟨-, b, -, -, -, -, hstop, hle, -⟩ := hblock hlt
    rw [hlength]
    exact max_eq_left (hstop ▸ hle)

/-- Storing one body where room has been set aside for it. -/
theorem writeBody (h : State g parts todo named stage d) {r : Ref .codeItem} {code : CodeItem}
    (hcode : g.get? r = some code) (hr : parts (.item .codeItem r))
    (htodo : todo (.item .codeItem r)) (hmap : ¬ parts .mapList)
    (hrefs : ∀ x ∈ code.debugInfo, d.layout.Assigned .debugInfo x) (first : UInt32) :
    Writer.Establishes (.relayout g) Error.Other (Writer.writeBody first r) (fun _ d' =>
      State g parts (fun p => todo p ∧ p ≠ .item .codeItem r) named stage d' ∧
        d.layout.Extends d'.layout ∧ d.stream.length ≤ d'.stream.length ∧
          (d'.stream.length < 2 ^ 32 → d'.stream.length = d.stream.length)) d := by
  obtain ⟨o, ho⟩ := (h.assigned_iff .codeItem rfl r).mpr hr
  unfold Writer.writeBody
  rw [Writer.establishes_bind, Writer.establishes_read]
  simp only [Job.relayout, hcode]
  simp only [Writer.establishes_bind, Writer.establishes_get, Writer.establishes_ofExcept,
    Writer.establishes_changeStream, Writer.establishes_tell, Writer.establishes_changeLayout,
    Writer.establishes_pure, Layout.offsetOf_eq_ok_iff]
  refine ⟨fun o ho => ⟨fun debug hdebug => ⟨fun item hitem => ⟨fun size hsize => ?_,
    fun e he => not_lacksOffset_of_toWord he⟩,
    fun e he => CodeItem.not_lacksOffset_of_encode he⟩,
    fun e he => absurd he (Layout.offsetOrZero_ne_error hrefs e)⟩,
    fun e he => absurd he (Layout.offsetOf_ne_error ⟨o, ho⟩ e)⟩
  have hencode : Section.encode d.layout .codeItem code = .ok item :=
    Except.bind_eq_ok_iff.mpr ⟨debug, hdebug, hitem⟩
  have htight := (Section.tight_of_encode hencode).position_eq
  rw [toWord_eq_ok_iff, Stream.position_append, Stream.position_seek] at hsize
  exact h.fillBody hcode hr htodo hmap ho hencode (by omega) rfl

/-- Storing the bodies that are in use. The output goes on where it was. -/
theorem writeCode (hg : g.Sound) {done : List Section}
    (h : State g (Part.Placed g done) (fun p => todo p ∨ ∃ r, p = .item .codeItem r)
      (Section.Named g done) .data d) (hend : d.AtEnd) (hcode : .codeItem ∈ done)
    (hdebug : .debugInfo ∈ done) (htodo : ∀ r, ¬ todo (.item .codeItem r)) :
    Writer.Establishes (.relayout g) Error.Other Writer.writeCode (fun _ d' =>
      State g (Part.Placed g done) todo (Section.Named g done) .data d' ∧ d'.AtEnd) d := by
  have hoffsets : (Job.relayout g).options.computeOffsets = true := rfl
  unfold Writer.writeCode
  refine (Writer.establishes_codeRefs_fresh hg fun r hr => ?_).bind ?_
  · exact ((h.assigned_iff _ rfl r).mp hr).2
  rintro refs d₁ ⟨hd, hsub, hrefs⟩
  have hnodup : refs.toList.Nodup := (hg.coherent .codeItem).nodup_order.sublist hsub
  rw [hd, Writer.establishes_bind, Writer.establishes_tell, ← Array.foldlM_toList]
  have hloop : Writer.Establishes (.relayout g) Error.Other
      (refs.toList.foldlM Writer.writeBody 0xFFFFFFFF) (fun _ d' =>
        State g (Part.Placed g done) (fun p => todo p ∨ ∃ r ∉ refs.toList, p = .item .codeItem r)
          (Section.Named g done) .data d' ∧ d.layout.Extends d'.layout ∧
        d.stream.length ≤ d'.stream.length ∧
          (d'.stream.length < 2 ^ 32 → d'.stream.length = d.stream.length)) d := by
    refine Writer.establishes_foldlM (I := fun taken _ d' =>
      State g (Part.Placed g done) (fun p => todo p ∨ ∃ r ∉ taken, p = .item .codeItem r)
        (Section.Named g done) .data d' ∧ d.layout.Extends d'.layout ∧
      d.stream.length ≤ d'.stream.length ∧
        (d'.stream.length < 2 ^ 32 → d'.stream.length = d.stream.length)) ?_
      ⟨h.congr (fun _ => Iff.rfl) (by simp) (fun _ => Iff.rfl), .refl _, le_rfl, fun _ => rfl⟩
    rintro taken r rest first d' hsplit ⟨h', hext, hge, heq⟩
    have hr : g.Emitted .codeItem r := (hrefs r).mp (by simp [← Array.mem_toList_iff, hsplit])
    have hfresh : r ∉ taken := by
      rw [hsplit] at hnodup
      exact fun hr => (List.nodup_append.mp hnodup).2.2 r hr r List.mem_cons_self rfl
    obtain ⟨code, hget⟩ := Graph.has_iff_exists.mp hr.has
    refine (h'.writeBody hget ⟨hcode, hr⟩ (.inr ⟨r, hfresh, rfl⟩) id (fun x hx => ?_) first).mono ?_
    · exact allOffsets_assigned hg h' (s := .codeItem) (by simpa [Section.offsetTargets]) hr hget x hx
    · rintro - d'' ⟨h'', hext', hge', heq'⟩
      refine ⟨h''.congr (fun _ => Iff.rfl) (fun p _ => ?_) (fun _ => Iff.rfl), hext.trans hext',
        hge.trans hge', fun hlt => (heq' hlt).trans (heq (Nat.lt_of_le_of_lt hge' hlt))⟩
      simp only [List.mem_append, List.mem_singleton, not_or]
      constructor
      · rintro (ht | ⟨r', ⟨hr', hne⟩, rfl⟩)
        · exact ⟨.inl ht, fun hp => htodo r (hp ▸ ht)⟩
        · exact ⟨.inr ⟨r', hr', rfl⟩, fun hp => hne (by simpa using hp)⟩
      · rintro ⟨ht | ⟨r', hr', rfl⟩, hne⟩
        · exact .inl ht
        · exact .inr ⟨r', ⟨hr', fun heq => hne (by rw [heq])⟩, rfl⟩
  refine hloop.bind ?_
  rintro first d' ⟨h', -, hge, heq⟩
  have hnamed : (!refs.isEmpty && (d'.layout.sectionOffset .codeItem).isNone) = false := by
    by_contra hne
    simp only [Bool.not_eq_false, Bool.and_eq_true, Bool.not_eq_true', Option.isNone_iff_eq_none,
      Array.isEmpty_eq_false_iff_exists_mem] at hne
    obtain ⟨⟨r, hr⟩, hnone⟩ := hne
    obtain ⟨o, ho⟩ := (h'.named_iff .codeItem).mpr (.inr ⟨hcode, r, (hrefs r).mp hr⟩)
    rw [hnone] at ho
    cases ho
  rw [Writer.establishes_bind, Writer.establishes_get, hnamed, if_neg (by simp)]
  rw [Writer.establishes_bind, Writer.establishes_computesOffsets, hoffsets, if_pos rfl,
    Writer.establishes_changeStream]
  refine ⟨(h'.congr (fun _ => Iff.rfl) (fun p hp => ?_) (fun _ => Iff.rfl)).seek _, fun hlt => ?_⟩
  · refine (or_iff_left ?_).symm
    rintro ⟨r, hr, rfl⟩
    exact hr (Array.mem_toList_iff.mpr ((hrefs r).mpr hp.2))
  · change d'.stream.length < 2 ^ 32 at hlt
    change d.stream.position = d'.stream.length
    rw [heq hlt, hend (Nat.lt_of_le_of_lt hge hlt)]

end State

end DexGraph
