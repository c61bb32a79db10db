import DexGraph.Proofs.Graph.Emitted
import DexGraph.Proofs.Writing.Parts

/-!
# Tables of a fresh image

`State g parts todo named stage d` is what holds between the steps of laying the graph `g` out
anew: the image has the parts `parts`, of which those of `todo` are still blank, and the sections
`named` have their offsets. What is said of positions holds as long as the output has not grown past
what an offset can say; an output that has never becomes an image.

A table is reserved by `State.reserveTable` and filled by `State.fillTable`.
-/

namespace DexGraph

/-- The job of laying a graph out anew. -/
def Job.relayout (g : Graph) : Job :=
  ⟨g, .relayout, g.liveCode⟩

/-- The error says something else than that an offset is missing. -/
def Error.Other (e : Error) : Prop :=
  ¬ e.LacksOffset

/-- What holds between the steps of laying a graph out anew. -/
structure State (g : Graph) (parts todo : Part → Prop) (named : Section → Prop) (stage : Stage)
    (d : Draft) : Prop where
  assigned_iff : ∀ s, s.rowSize? = none → ∀ r, d.layout.Assigned s r ↔ parts (.item s r)
  rows : ∀ s, s.rowSize? ≠ none → ¬ parts (.table s) → ∀ r, ¬ d.layout.Assigned s r
  named_iff : ∀ s, (∃ o, d.layout.sectionOffset s = some o) ↔ named s
  hiddenapi_iff : (∃ o, d.layout.hiddenapi.offset = some o) ↔ parts .hiddenapi
  progress : d.stream.length < 2 ^ 32 → ∃ blocks, Progress g parts todo stage blocks d

/-- The cursor stands at the end of the output. -/
def Draft.AtEnd (d : Draft) : Prop :=
  d.stream.length < 2 ^ 32 → d.stream.position = d.stream.length

variable {g : Graph} {parts todo : Part → Prop} {named : Section → Prop} {stage : Stage} {d : Draft}
  {s : Section}

theorem State.congr (h : State g parts todo named stage d) {parts' todo' : Part → Prop}
    {named' : Section → Prop} (hparts : ∀ p, parts' p ↔ parts p)
    (htodo : ∀ p, parts p → (todo' p ↔ todo p)) (hnamed : ∀ s, named' s ↔ named s) :
    State g parts' todo' named' stage d := by
  obtain rfl : parts' = parts := funext fun p => propext (hparts p)
  obtain rfl : named' = named := funext fun s => propext (hnamed s)
  refine ⟨h.assigned_iff, h.rows, h.named_iff, h.hiddenapi_iff, fun hlt => ?_⟩
  obtain ⟨blocks, hb⟩ := h.progress hlt
  exact ⟨blocks, { hb with
    blank := fun b hmem ht => hb.blank b hmem ((htodo _ (hb.part_mem hmem)).mp ht)
    filled := fun b hmem ht =>
      hb.filled b hmem fun ht' => ht ((htodo _ (hb.part_mem hmem)).mpr ht') }⟩

theorem le_alignUp (n : Nat) {k : Nat} (hk : 0 < k) : n ≤ alignUp n k := by
  have := Nat.lt_div_mul_add (a := n + k - 1) hk
  unfold alignUp
  omega

theorem dvd_alignUp (n k : Nat) : k ∣ alignUp n k :=
  Dvd.intro_left _ rfl

/-- Aligning the end of an output moves it to the next multiple. -/
theorem Stream.alignTo_atEnd {stream : Stream} (h : stream.position = stream.length) {k : Nat}
    (hk : 0 < k) : (stream.alignTo k).position = alignUp stream.length k ∧
      (stream.alignTo k).length = alignUp stream.length k := by
  have := le_alignUp stream.length hk
  simp only [alignTo, position_skip, length_skip, h]
  omega

theorem Section.alignment_pos (s : Section) : 0 < s.alignment := by
  cases s <;> decide

/-! ## Room for a table -/

namespace Layout

theorem place_setOffset (l : Layout) (r r' : Ref s) (o : Option UInt32) :
    (l.setOffset r o).place r' = if r = r' then { l.place r' with offset := o } else l.place r' :=
  l.place_modifyPlace r r' _

theorem place_setOffset_of_ne (l : Layout) {t : Section} (h : s ≠ t) (r : Ref s) (r' : Ref t)
    (o : Option UInt32) : (l.setOffset r o).place r' = l.place r' :=
  l.place_modifyPlace_of_ne h r r' _

/-- The layout in which the first entries of a section have the given offsets. -/
def setOffsets (l : Layout) (s : Section) (n : Nat) (offset : Nat → UInt32) : Layout :=
  n.fold (fun i _ l => l.setOffset (.ofPos i : Ref s) (some (offset i))) l

variable (l : Layout) {n : Nat} {offset : Nat → UInt32}

theorem place_setOffsets (hn : n ≤ 2 ^ 32) (r : Ref s) :
    (l.setOffsets s n offset).place r =
      if r.pos < n then { l.place r with offset := some (offset r.pos) } else l.place r := by
  induction n with
  | zero => simp [setOffsets]
  | succ n ih =>
    have hpos : (Ref.ofPos n : Ref s).pos = n := Ref.pos_ofPos (by omega)
    simp only [setOffsets, Nat.fold_succ] at ih ⊢
    rw [place_setOffset, ih (by omega)]
    by_cases hr : (Ref.ofPos n : Ref s) = r
    · rw [← hr, hpos, if_pos rfl, if_neg (Nat.lt_irrefl n), if_pos (Nat.lt_succ_self n)]
    · have hne : r.pos ≠ n := by
        intro h
        exact hr (Ref.pos_inj.mp (hpos.trans h.symm))
      rw [if_neg hr]
      by_cases hlt : r.pos < n
      · rw [if_pos hlt, if_pos (by omega)]
      · rw [if_neg hlt, if_neg (by omega)]

theorem place_setOffsets_of_ne {t : Section} (h : s ≠ t) (r : Ref t) :
    (l.setOffsets s n offset).place r = l.place r := by
  induction n with
  | zero => rfl
  | succ n ih =>
    simp only [setOffsets, Nat.fold_succ] at ih ⊢
    rw [place_setOffset_of_ne _ h, ih]

theorem sectionOffset_setOffsets (t : Section) :
    (l.setOffsets s n offset).sectionOffset t = l.sectionOffset t := by
  induction n with
  | zero => rfl
  | succ n ih =>
    simp only [setOffsets, Nat.fold_succ] at ih ⊢
    rw [sectionOffset_setOffset, ih]

/-- What setting the offsets of a section does not touch. -/
theorem setOffsets_frame :
    (l.setOffsets s n offset).hiddenapi = l.hiddenapi ∧
      (l.setOffsets s n offset).dataOffset = l.dataOffset ∧
      (l.setOffsets s n offset).dataSize = l.dataSize := by
  induction n with
  | zero => exact ⟨rfl, rfl, rfl⟩
  | succ n ih =>
    simp only [setOffsets, Nat.fold_succ] at ih ⊢
    exact ih

end Layout

namespace Layout

/-- A table is given its offset and those of its rows. -/
def openTable (l : Layout) (s : Section) (count start rowSize : Nat) : Layout :=
  (l.setOffsets s count fun i => (start + i * rowSize).toUInt32).setSectionOffset s
    (some start.toUInt32)

variable (l : Layout) {count start rowSize : Nat}

theorem place_openTable (hcount : count ≤ 2 ^ 32) (r : Ref s) :
    (l.openTable s count start rowSize).place r =
      if r.pos < count then
        { l.place r with offset := some (start + r.pos * rowSize).toUInt32 }
      else l.place r := by
  rw [openTable, place_setSectionOffset, place_setOffsets l hcount]

theorem place_openTable_of_ne {t : Section} (h : s ≠ t) (r : Ref t) :
    (l.openTable s count start rowSize).place r = l.place r := by
  rw [openTable, place_setSectionOffset, place_setOffsets_of_ne l h]

theorem sectionOffset_openTable (t : Section) :
    (l.openTable s count start rowSize).sectionOffset t =
      if s = t then some start.toUInt32 else l.sectionOffset t := by
  rw [openTable, sectionOffset_setSectionOffset, sectionOffset_setOffsets]

theorem openTable_frame :
    (l.openTable s count start rowSize).hiddenapi = l.hiddenapi ∧
      (l.openTable s count start rowSize).dataOffset = l.dataOffset ∧
      (l.openTable s count start rowSize).dataSize = l.dataSize :=
  l.setOffsets_frame

end Layout

/-- Where the room lies that is set aside at the end of an output. -/
theorem Draft.AtEnd.reserve (hend : d.AtEnd) {k size : Nat} (hk : 0 < k)
    (hlt : ((d.stream.alignTo k).skip size).length < 2 ^ 32) :
    d.stream.length < 2 ^ 32 ∧ (d.stream.alignTo k).position = alignUp d.stream.length k ∧
      ((d.stream.alignTo k).skip size).length = alignUp d.stream.length k + size := by
  rw [Stream.length_skip] at hlt ⊢
  have hlt' : d.stream.length < 2 ^ 32 := by
    simp only [Stream.alignTo, Stream.length_skip] at hlt
    omega
  have := Stream.alignTo_atEnd (hend hlt') hk
  omega

/-- The draft in which room for a table has been set aside. -/
def Draft.openTable (d : Draft) (s : Section) (count rowSize : Nat) : Draft where
  stream := (d.stream.alignTo 4).skip (count * rowSize)
  layout := d.layout.openTable s count (d.stream.alignTo 4).position rowSize

namespace State

variable {n : Nat}

private theorem openTable_progress (hs : s.rowSize? = some n) (hg : g.Sound)
    (h : State g parts todo named .tables d) (hend : d.AtEnd) (hparts : ¬ parts (.table s))
    (hnamed : ¬ named s) (hcount : g.count s ≠ 0)
    (hlt : (d.openTable s (g.count s) n).stream.length < 2 ^ 32) :
    ∃ blocks, Progress g (fun p => parts p ∨ p = .table s) (fun p => todo p ∨ p = .table s)
      .tables blocks (d.openTable s (g.count s) n) := by
  obtain ⟨hlt', hpos, hlength⟩ := hend.reserve (by decide) hlt
  obtain ⟨blocks, hb⟩ := h.progress hlt'
  have hheads (p : Part) (hp : parts p) : p.IsHead := by
    obtain ⟨b, hmem, rfl⟩ := (hb.parts_iff p).mp hp
    exact hb.heads rfl b hmem
  have hkeeps : d.layout.Keeps g parts (d.openTable s (g.count s) n).layout := by
    refine ⟨fun t r o ho => d.layout.place_openTable_of_ne ?_ r, fun t o ho => ?_,
      fun _ _ => d.layout.openTable_frame.1, fun hp => (hheads _ hp).elim,
      fun hp => (hheads _ hp).elim⟩
    · rintro rfl
      exact h.rows s (by rw [hs]; rintro ⟨⟩) hparts r ⟨o, ho⟩
    · rw [Draft.openTable, Layout.sectionOffset_openTable, if_neg, ho]
      rintro rfl
      exact hnamed ((h.named_iff s).mp ⟨o, ho⟩)
  have hframe : d.layout.SameFrame .tables (d.openTable s (g.count s) n).layout := by
    refine ⟨fun t ht => ?_, fun h => absurd rfl h, by simp⟩
    rw [Draft.openTable, Layout.sectionOffset_openTable, if_neg]
    rintro rfl
    rw [hs] at ht
    cases ht
  have hrec : Block.Recorded g (d.openTable s (g.count s) n).layout ⟨.table s,
      alignUp d.stream.length 4, alignUp d.stream.length 4 + g.count s * n⟩ := by
    refine ⟨?_, hcount, n, hs, rfl, fun r hr => ?_⟩
    · rw [Draft.openTable, Layout.sectionOffset_openTable, if_pos rfl, hpos]
    · have hsize : g.count s ≤ 2 ^ 32 := Nat.le_of_lt (hg.coherent s).size_lt
      rw [Draft.openTable, d.layout.place_openTable hsize, if_pos (show r.pos < _ from hr), hpos]
  have halign : (Part.table s).alignment ∣ alignUp d.stream.length 4 := by
    have : s.alignment ∣ 4 := by cases s <;> decide
    exact this.trans (dvd_alignUp _ _)
  refine ⟨_, hb.push hparts (le_alignUp _ (by decide)) (Nat.le_add_right ..) halign hlength.ge
    (fun i _ => by simp [Draft.openTable]) hkeeps hframe hrec (by simp [Part.IsHead]) (by simp) (by simp)
    (fun _ _ => nofun) (fun p hp => ?_) (fun _ i h₁ h₂ => ?_) (fun ht => absurd (.inr rfl) ht)⟩
  · constructor
    · rintro (ht | rfl)
      · exact ht
      · exact absurd hp hparts
    · exact .inl
  · cases hi : (d.openTable s (g.count s) n).stream.byteAt? i with
    | none => rfl
    | some v =>
      obtain ⟨b, hmem, -, hlt⟩ := hb.covered i v (by simpa [Draft.openTable] using hi)
      have := (hb.within b hmem).2
      have := le_alignUp d.stream.length (k := 4) (by decide)
      change alignUp d.stream.length 4 ≤ i at h₁
      omega

/-- Room for a table has been set aside behind everything else. -/
private theorem openTable (hs : s.rowSize? = some n) (hg : g.Sound)
    (h : State g parts todo named .tables d) (hend : d.AtEnd) (hparts : ¬ parts (.table s))
    (hnamed : ¬ named s) (hcount : g.count s ≠ 0) :
    State g (fun p => parts p ∨ p = .table s) (fun p => todo p ∨ p = .table s)
      (fun t => named t ∨ t = s) .tables (d.openTable s (g.count s) n) where
  assigned_iff t ht r := by
    have hne : s ≠ t := by
      rintro rfl
      rw [hs] at ht
      cases ht
    rw [Layout.Assigned, Draft.openTable, d.layout.place_openTable_of_ne hne]
    exact (h.assigned_iff t ht r).trans (by simp)
  rows t ht hp r := by
    have hne : s ≠ t := by
      rintro rfl
      exact hp (.inr rfl)
    rw [Layout.Assigned, Draft.openTable, d.layout.place_openTable_of_ne hne]
    exact h.rows t ht (fun hp' => hp (.inl hp')) r
  named_iff t := by
    rw [Draft.openTable, Layout.sectionOffset_openTable]
    by_cases hts : s = t
    · subst hts
      simp
    · rw [if_neg hts, h.named_iff t, or_iff_left (Ne.symm hts)]
  hiddenapi_iff := by
    rw [Draft.openTable, d.layout.openTable_frame.1]
    exact h.hiddenapi_iff.trans (by simp)
  progress hlt := openTable_progress hs hg h hend hparts hnamed hcount hlt

/-- Setting room aside for a table. -/
theorem reserveTable (hs : s.rowSize? = some n) (hg : g.Sound)
    (h : State g parts todo named .tables d) (hend : d.AtEnd) (hparts : ¬ parts (.table s))
    (hnamed : ¬ named s) :
    Writer.Establishes (.relayout g) Error.Other (Writer.reserveTable s) (fun _ d' =>
      State g (fun p => parts p ∨ p = .table s ∧ g.count s ≠ 0) (fun p => todo p ∨ p = .table s)
        (fun t => named t ∨ t = s ∧ g.count s ≠ 0) .tables d' ∧ d'.AtEnd ∧
      (d'.stream.length < 2 ^ 32 → ∀ o, d'.layout.sectionOffset s = some o →
        o.toNat + g.count s * n = d'.stream.length)) d := by
  simp only [Writer.reserveTable, Writer.establishes_bind, Writer.establishes_read,
    Writer.establishes_computesOffsets, Writer.establishes_ite, Writer.establishes_changeStream,
    Writer.establishes_tell, Writer.establishes_changeLayout, Writer.establishes_pure, hs,
    Option.getD_some]
  constructor
  case left =>
    intro hcount
    have hcount : g.count s ≠ 0 := by simpa [Job.relayout, WriteOptions.relayout] using hcount
    have hstate := openTable hs hg h hend hparts hnamed hcount
    refine ⟨hstate.congr (fun p => by simp [hcount]) (fun _ _ => Iff.rfl)
      (fun t => by simp [hcount]), fun hlt => ?_, fun hlt o ho => ?_⟩
    · obtain ⟨-, hpos, hlength⟩ := hend.reserve (by decide) hlt
      exact (congrArg (· + _) hpos).trans hlength.symm
    · obtain ⟨-, hpos, hlength⟩ := hend.reserve (by decide) hlt
      rw [Layout.sectionOffset_setSectionOffset, if_pos rfl, hpos] at ho
      cases ho
      have hsmall : alignUp d.stream.length 4 < 2 ^ 32 :=
        Nat.lt_of_le_of_lt (Nat.le.intro hlength.symm) hlt
      rw [toNat_toUInt32 hsmall]
      exact hlength.symm
  case right =>
    intro hcount
    have hcount : g.count s = 0 := by simpa [Job.relayout, WriteOptions.relayout] using hcount
    refine ⟨h.congr (fun p => by simp [hcount]) (fun p hp => ?_) (fun t => by simp [hcount]), hend,
      fun _ o ho => absurd ((h.named_iff s).mp ⟨o, ho⟩) hnamed⟩
    constructor
    · rintro (ht | rfl)
      · exact ht
      · exact absurd hp hparts
    · exact .inl

end State

/-! ## The rows of a table -/

/-- The draft `d'` is `d` with the bytes `out` stored from `start` on and the cursor behind them. -/
structure Draft.Stored (d : Draft) (start : Nat) (out : List UInt8) (d' : Draft) : Prop where
  layout_eq : d'.layout = d.layout
  position_eq : d'.stream.position = start + out.length
  length_ge : d.stream.length ≤ d'.stream.length
  length_le : d'.stream.length ≤ max d.stream.length (start + out.length)
  byteAt?_eq : ∀ i, d'.stream.byteAt? i =
    if start ≤ i ∧ i < start + out.length then out[i - start]? else d.stream.byteAt? i

theorem Draft.stored_seek (d : Draft) (start : Nat) :
    d.Stored start [] { d with stream := d.stream.seek start } :=
  ⟨rfl, rfl, Nat.le_refl _, Nat.le_max_left .., fun i => by
    rw [Stream.byteAt?_seek, List.length_nil, if_neg (by omega)]⟩

theorem Draft.Stored.write {start : Nat} {out : List UInt8} {d' : Draft}
    (h : d.Stored start out d') (bytes : Bytes) :
    d.Stored start (out ++ bytes.toList) { d' with stream := d'.stream.write bytes } := by
  have hlength : (out ++ bytes.toList).length = out.length + bytes.size := by simp
  have hge := h.length_ge
  have hle := h.length_le
  constructor
  case layout_eq => exact h.layout_eq
  case position_eq =>
    rw [Stream.position_write, h.position_eq, hlength, Nat.add_assoc]
  case length_ge =>
    rw [Stream.length_write]
    omega
  case length_le =>
    rw [Stream.length_write, h.position_eq, hlength]
    omega
  case byteAt?_eq =>
    intro i
    rw [Stream.byteAt?_write, h.byteAt?_eq, h.position_eq, hlength]
    by_cases hlt : i < start + out.length
    · rw [if_neg (by omega), Option.none_or]
      by_cases hle : start ≤ i
      · rw [if_pos ⟨hle, hlt⟩, if_pos (by omega), List.getElem?_append_left (by omega)]
      · rw [if_neg (by omega), if_neg (by omega)]
    · rw [if_pos (by omega), if_neg (by omega)]
      by_cases hin : i < start + (out.length + bytes.size)
      · rw [if_pos (by omega), List.getElem?_append_right (by omega), Array.getElem?_toList,
          Nat.sub_sub, Array.getElem?_eq_getElem (by omega), Option.some_or]
      · rw [if_neg (by omega), Array.getElem?_eq_none (by omega), Option.none_or]

/-- Storing the rows of entries behind each other. -/
theorem Writer.establishes_rows {job : Job} {E : Error → Prop} {row : Type} [Row row]
    {toRow : Layout → s.Content → Except Error row}
    (hrow : ∀ l x, s.encode l x = (do return Stream.ofBytes (Row.encode (← toRow l x))))
    {entries : Array s.Content} (herror : ∀ x ∈ entries, ∀ e, s.encode d.layout x = .error e → E e)
    (start : Nat) :
    Establishes job E
      (entries.forM fun x => do
        let row ← ofExcept (toRow (← get).layout x)
        changeStream fun stream => stream.write (Row.encode row))
      (fun _ d' => ∃ out,
        Bytes.pieces (fun x => Stream.toBytes <$> s.encode d.layout x) entries.toList = .ok out ∧
          d.Stored start out d') { d with stream := d.stream.seek start } := by
  refine establishes_forM (I := fun done d' => ∃ out,
    Bytes.pieces (fun x => Stream.toBytes <$> s.encode d.layout x) done = .ok out ∧
      d.Stored start out d') (fun done x rest d' hxs h => ?_) ⟨[], rfl, d.stored_seek start⟩
  obtain ⟨out, hout, hstored⟩ := h
  simp only [establishes_bind, establishes_get, establishes_ofExcept, establishes_changeStream,
    hstored.layout_eq]
  constructor
  · intro row hx
    refine ⟨out ++ (Row.encode row).toList, Bytes.pieces_concat hout ?_, ?_⟩
    swap
    · rw [← hstored.layout_eq]
      exact hstored.write (Row.encode row)
    rw [hrow, hx]
    exact congrArg _ (Stream.toBytes_ofBytes _)
  · intro e he
    have hmem : x ∈ entries := by simp [← Array.mem_toList_iff, hxs]
    exact herror x hmem e (by rw [hrow, he]; rfl)

namespace State

variable {n : Nat}

/-- The rows of a table have been stored where room was set aside for them. -/
private theorem fillTable_stored (hs : s.rowSize? = some n) {d' : Draft} {o : UInt32}
    {out : List UInt8} (h : State g parts todo named stage d) (hparts : parts (.table s))
    (ho : d.layout.sectionOffset s = some o)
    (hout : Bytes.pieces (fun x => Stream.toBytes <$> s.encode d.layout x)
      (g.entities s).items.toList = .ok out) (hstored : d.Stored o.toNat out d') :
    State g parts (fun p => todo p ∧ p ≠ .table s) named stage d' ∧ d'.layout = d.layout ∧
      (d.AtEnd → (d.stream.length < 2 ^ 32 → ∀ o, d.layout.sectionOffset s = some o →
        o.toNat + g.count s * n = d.stream.length) → d'.AtEnd) := by
  have hlength : out.length = g.count s * n := by
    refine (Bytes.length_pieces (n := n) hout fun x part hx => ?_).trans ?_
    · cases hitem : s.encode d.layout x with
      | error e => rw [hitem] at hx; cases hx
      | ok item =>
        rw [hitem] at hx
        cases hx
        rw [Stream.size_toBytes, Section.length_of_encode_row hs hitem]
    · rfl
  have hge := hstored.length_ge
  have hle := hstored.length_le
  have hprogress (hlt : d'.stream.length < 2 ^ 32) :
      ∃ blocks, Progress g parts (fun p => todo p ∧ p ≠ .table s) stage blocks d' := by
    obtain ⟨blocks, hb⟩ := h.progress (by omega)
    obtain ⟨b, hmem, hpart⟩ := (hb.parts_iff _).mp hparts
    have hrec := hb.recorded b hmem
    have hwithin := hb.within b hmem
    obtain ⟨part, start, stop⟩ := b
    obtain rfl : part = .table s := hpart
    obtain ⟨hstart, -, n', hn', hstop, -⟩ := hrec
    rw [hs] at hn'
    cases hn'
    change stop = start + g.count s * n at hstop
    change start ≤ stop ∧ stop ≤ _ at hwithin
    have hstart : o.toNat = start := by
      rw [ho] at hstart
      rw [Option.some.inj hstart]
      exact toNat_toUInt32 (n := start) (by omega)
    refine ⟨blocks, hb.fill hmem hge (fun i hi => ?_)
      (by rw [hstored.layout_eq]; exact .refl _) (by rw [hstored.layout_eq]; exact .refl ..)
      (fun _ => Iff.rfl) ⟨.ofBytes out.toArray, ⟨out, ?_, rfl⟩, ?_, fun i hi => ?_⟩⟩
    · rw [hstored.byteAt?_eq, if_neg]
      change ¬ (start ≤ i ∧ i < stop) at hi
      omega
    · rw [hstored.layout_eq]
      exact hout
    · simp only [Stream.length_ofBytes, List.size_toArray, hlength]
      omega
    · rw [Stream.length_ofBytes, List.size_toArray] at hi
      rw [Stream.byteAt?_ofBytes, hstored.byteAt?_eq, if_pos (by simp only; omega),
        List.getElem?_toArray]
      congr 1
      simp only
      omega
  refine ⟨⟨?_, ?_, ?_, ?_, hprogress⟩, hstored.layout_eq, fun _ hexact hlt => ?_⟩
  · rw [hstored.layout_eq]
    exact h.assigned_iff
  · rw [hstored.layout_eq]
    exact h.rows
  · rw [hstored.layout_eq]
    exact h.named_iff
  · rw [hstored.layout_eq]
    exact h.hiddenapi_iff
  · have := hexact (by omega) o ho
    rw [hstored.position_eq]
    omega

/-- Filling in a table for which room has been set aside. -/
theorem fillTable (hg : g.Sound) (hs : s.rowSize? = some n) {row : Type} [Row row]
    {toRow : Layout → s.Content → Except Error row}
    (hrow : ∀ l x, s.encode l x = (do return Stream.ofBytes (Row.encode (← toRow l x))))
    (h : State g parts todo named stage d) (hparts : parts (.table s) ↔ g.count s ≠ 0)
    (hnamed : named s ↔ g.count s ≠ 0)
    (hrefs : ∀ (r : Ref s) x, g.get? r = some x → s.AllOffsets d.layout.Assigned x) :
    Writer.Establishes (.relayout g) Error.Other (Writer.fillTable s toRow) (fun _ d' =>
      State g parts (fun p => todo p ∧ p ≠ .table s) named stage d' ∧ d'.layout = d.layout ∧
        (d.AtEnd → (d.stream.length < 2 ^ 32 → ∀ o, d.layout.sectionOffset s = some o →
          o.toNat + g.count s * n = d.stream.length) → d'.AtEnd)) d := by
  simp only [Writer.fillTable, Writer.establishes_bind, Writer.establishes_read,
    Writer.establishes_ite, Writer.establishes_get, Writer.establishes_pure]
  constructor
  · intro hempty
    have hcount : g.count s = 0 := by
      simpa [Job.relayout, Graph.count, Collection.size] using hempty
    refine ⟨h.congr (fun _ => Iff.rfl) (fun p hp => ?_) (fun _ => Iff.rfl), trivial,
      fun hend _ => hend⟩
    refine and_iff_left ?_
    rintro rfl
    exact hparts.mp hp hcount
  · intro hempty
    have hcount : g.count s ≠ 0 := by
      simpa [Job.relayout, Graph.count, Collection.size] using hempty
    obtain ⟨o, ho⟩ := (h.named_iff s).mpr (hnamed.mpr hcount)
    simp only [ho, Writer.establishes_bind, Writer.establishes_changeStream]
    refine (Writer.establishes_rows hrow (fun x hx e he => ?_) o.toNat).mono fun _ d' hd' => ?_
    · obtain ⟨r, hr⟩ := hg.exists_get?_of_mem hx
      exact Section.not_lacksOffset_of_encode (hrefs r x hr) he
    · obtain ⟨out, hout, hstored⟩ := hd'
      simpa only [ho] using fillTable_stored hs h (hparts.mpr hcount) ho hout hstored

/-- Setting room aside for a table that names no data items and filling it in at once. -/
theorem writeTable (hs : s.rowSize? = some n) (hg : g.Sound) {row : Type} [Row row]
    {toRow : Layout → s.Content → Except Error row}
    (hrow : ∀ l x, s.encode l x = (do return Stream.ofBytes (Row.encode (← toRow l x))))
    (hrefs : ∀ x p, s.AllOffsets p x) (h : State g parts todo named .tables d) (hend : d.AtEnd)
    (hparts : ¬ parts (.table s)) (hnamed : ¬ named s) :
    Writer.Establishes (.relayout g) Error.Other (Writer.writeTable s toRow) (fun _ d' =>
      State g (fun p => parts p ∨ p = .table s ∧ g.count s ≠ 0) (fun p => todo p ∧ p ≠ .table s)
        (fun t => named t ∨ t = s ∧ g.count s ≠ 0) .tables d' ∧ d'.AtEnd) d := by
  refine (reserveTable hs hg h hend hparts hnamed).bind ?_
  rintro _ d₁ ⟨h₁, hend₁, hexact⟩
  refine (fillTable hg hs hrow h₁ ?_ ?_ fun _ x _ => hrefs x _).mono ?_
  · simp [hparts]
  · simp [hnamed]
  · rintro _ d₂ ⟨h₂, _, hend₂⟩
    refine ⟨h₂.congr (fun _ => Iff.rfl) (fun p _ => ?_) (fun _ => Iff.rfl), hend₂ hend₁ hexact⟩
    tauto

end State

/-! ## All tables -/

/-- The parts that come before the data section. -/
def Part.InHead (g : Graph) : Part → Prop
  | .header => True
  | .table s => s.rowSize? ≠ none ∧ g.count s ≠ 0
  | _ => False

/-- The parts before the data section that are filled in only after it. -/
def Part.Pending (p : Part) : Prop :=
  p = .header ∨ p = .table .stringId ∨ p = .table .protoId ∨ p = .table .classDef ∨
    p = .table .callSiteId

namespace State

/-- An image starts with room for its header. -/
theorem start (g : Graph) (l : Layout) :
    State g (· = .header) (· = .header) (fun _ => False) .tables
      ⟨(∅ : Stream).skip FileHeader.byteSize, l.clearOffsets⟩ := by
  have hassigned (s : Section) (r : Ref s) : ¬ l.clearOffsets.Assigned s r := by
    rintro ⟨o, ho⟩
    rw [Layout.place_clearOffsets] at ho
    cases ho
  refine ⟨fun s _ r => ?_, fun s _ _ => hassigned s, fun s => ?_, ?_, fun _ => ?_⟩
  · simpa using hassigned s r
  · simp [Layout.sectionOffset_clearOffsets]
  · simp [Layout.clearOffsets, Place.clear]
  refine ⟨[⟨.header, 0, FileHeader.byteSize⟩], ?_⟩
  constructor
  case parts_iff => simp [eq_comm]
  case distinct => exact List.pairwise_singleton ..
  case ordered => exact List.pairwise_singleton ..
  case inTurn => exact List.pairwise_singleton ..
  case covered => rintro i v ⟨⟩
  case least =>
    intro s _ o ho
    rw [Layout.sectionOffset_clearOffsets] at ho
    cases ho
  all_goals simp [Block.Recorded, Block.Blank, Part.IsHead, Part.alignment, Stream.length_skip]

/-- Storing the tables that name no data items, and setting room aside for the others. -/
theorem writeTables (hg : g.Sound)
    (h : State g (· = .header) (· = .header) (fun _ => False) .tables d) (hend : d.AtEnd) :
    Writer.Establishes (.relayout g) Error.Other Writer.writeTables (fun _ d' =>
      State g (Part.InHead g) Part.Pending (fun s => Part.InHead g (.table s)) .tables d' ∧
        d'.AtEnd) d := by
  unfold Writer.writeTables
  refine (reserveTable rfl hg h hend (by simp) (by simp)).bind ?_
  rintro _ d ⟨h, hend, _⟩
  refine (writeTable (s := .typeId) rfl hg (fun _ _ => rfl) (fun _ _ => trivial) h hend (by simp)
    (by simp)).bind ?_
  rintro _ d ⟨h, hend⟩
  refine (reserveTable rfl hg h hend (by simp) (by simp)).bind ?_
  rintro _ d ⟨h, hend, _⟩
  refine (writeTable (s := .fieldId) rfl hg (fun _ _ => rfl) (fun _ _ => trivial) h hend (by simp)
    (by simp)).bind ?_
  rintro _ d ⟨h, hend⟩
  refine (writeTable (s := .methodId) rfl hg (fun _ _ => rfl) (fun _ _ => trivial) h hend (by simp)
    (by simp)).bind ?_
  rintro _ d ⟨h, hend⟩
  refine (reserveTable rfl hg h hend (by simp) (by simp)).bind ?_
  rintro _ d ⟨h, hend, _⟩
  refine (reserveTable rfl hg h hend (by simp) (by simp)).bind ?_
  rintro _ d ⟨h, hend, _⟩
  refine (writeTable (s := .methodHandle) rfl hg (fun _ _ => rfl) (fun _ _ => trivial) h hend (by simp)
    (by simp)).mono ?_
  rintro _ d ⟨h, hend⟩
  refine ⟨h.congr (fun p => ?_) (fun p _ => ?_) (fun s => ?_), hend⟩
  · cases p with
    | table s => cases s <;> simp [Part.InHead, Section.rowSize?]
    | _ => simp [Part.InHead]
  · cases p with
    | table s => cases s <;> simp [Part.Pending]
    | _ => simp [Part.Pending]
  · cases s <;> simp [Part.InHead, Section.rowSize?]

end State

end DexGraph
