import DexGraph.Proofs.Codec.Encodable
import DexGraph.Proofs.Writing.Relayout
import DexGraph.Proofs.Writing.Selection

/-!
# Why a graph is not laid out anew

Laying a graph out anew does not fail for want of an offset. If nothing but its defects keeps an
entity from being written, then either an entity that is to be written has a defect, or the output
has outgrown what an offset can say: `Graph.write_relayout_refused`. That the output has outgrown it
is seen where writing stops, so the predicate for a failed step, other than that of
`Writer.Establishes`, is about the draft as well as the error.
-/

namespace DexGraph

namespace Writer

variable {α β : Type} {job : Job} {F : Error → Draft → Prop} {d : Draft}

/-- Started from `d`, the step either succeeds with what satisfies `Q`, or stops with an error at a
draft that `F` relates. -/
def Ends (job : Job) (F : Error → Draft → Prop) (w : Writer α) (Q : α → Draft → Prop) (d : Draft) :
    Prop :=
  match w job d with
  | .ok a d' => Q a d'
  | .error e d' => F e d'

theorem Ends.of_error {w : Writer α} {Q : α → Draft → Prop} {e : Error} {d' : Draft}
    (h : Ends job F w Q d) (hw : w job d = .error e d') : F e d' := by
  unfold Ends at h
  rwa [hw] at h

theorem Ends.mono {w : Writer α} {Q Q' : α → Draft → Prop} (h : Ends job F w Q d)
    (hQ : ∀ a d', Q a d' → Q' a d') : Ends job F w Q' d := by
  unfold Ends at h ⊢
  cases hw : w job d with
  | ok a d' =>
    rw [hw] at h
    exact hQ a d' h
  | error e d' => rwa [hw] at h

/-- A step that never fails stops nowhere. -/
theorem Establishes.ends {w : Writer α} {Q : α → Draft → Prop}
    (h : Establishes job (fun _ => False) w Q d) : Ends job F w Q d := by
  unfold Establishes at h
  unfold Ends
  cases hw : w job d with
  | ok a d' => rwa [hw] at h
  | error e d' =>
    rw [hw] at h
    exact h.elim

section Rules

variable {Q : α → Draft → Prop}

theorem ends_pure {a : α} : Ends job F (pure a) Q d ↔ Q a d :=
  Iff.rfl

theorem ends_bind {w : Writer β} {f : β → Writer α} :
    Ends job F (w >>= f) Q d ↔ Ends job F w (fun b => Ends job F (f b) Q) d := by
  unfold Ends
  rw [run_bind]
  cases w job d <;> rfl

theorem Ends.bind {w : Writer β} {f : β → Writer α} {R : β → Draft → Prop}
    (h : Ends job F w R d) (hf : ∀ b d', R b d' → Ends job F (f b) Q d') :
    Ends job F (w >>= f) Q d :=
  ends_bind.mpr (h.mono hf)

theorem ends_read {Q : Job → Draft → Prop} : Ends job F read Q d ↔ Q job d :=
  Iff.rfl

theorem ends_get {Q : Draft → Draft → Prop} : Ends job F get Q d ↔ Q d d :=
  Iff.rfl

theorem ends_ofExcept {x : Except Error α} :
    Ends job F (ofExcept x) Q d ↔ (∀ a, x = .ok a → Q a d) ∧ ∀ e, x = .error e → F e d := by
  cases x with
  | ok a =>
    change Q a d ↔ _
    simp
  | error e =>
    change F e d ↔ _
    simp

theorem ends_changeStream {Q : Unit → Draft → Prop} {f : Stream → Stream} :
    Ends job F (changeStream f) Q d ↔ Q () { d with stream := f d.stream } :=
  Iff.rfl

theorem ends_changeLayout {Q : Unit → Draft → Prop} {f : Layout → Layout} :
    Ends job F (changeLayout f) Q d ↔ Q () { d with layout := f d.layout } :=
  Iff.rfl

theorem ends_tell {Q : Nat → Draft → Prop} : Ends job F tell Q d ↔ Q d.stream.position d :=
  Iff.rfl

theorem ends_computesOffsets {Q : Bool → Draft → Prop} :
    Ends job F computesOffsets Q d ↔ Q job.options.computeOffsets d :=
  Iff.rfl

theorem ends_ite {c : Prop} [Decidable c] {w w' : Writer α} :
    Ends job F (if c then w else w') Q d ↔
      (c → Ends job F w Q d) ∧ (¬ c → Ends job F w' Q d) := by
  split <;> simp_all

end Rules

/-- The rule for loops: every turn keeps `I`. -/
theorem ends_foldlM {f : β → α → Writer β} {I : Draft → Prop} {xs : Array α}
    (hstep : ∀ x ∈ xs, ∀ b d, I d → Ends job F (f b x) (fun _ => I) d) {b : β} (h : I d) :
    Ends job F (xs.foldlM f b) (fun _ => I) d := by
  rw [← Array.foldlM_toList]
  simp only [← Array.mem_toList_iff] at hstep
  generalize xs.toList = list at hstep
  induction list generalizing b d with
  | nil => exact h
  | cons x rest ih =>
    rw [List.foldlM_cons]
    refine (hstep x List.mem_cons_self b d h).bind fun b' d' h' => ih h' ?_
    exact fun y hy => hstep y (List.mem_cons_of_mem _ hy)

theorem ends_forM {f : α → Writer PUnit} {I : Draft → Prop} {xs : Array α}
    (hstep : ∀ x ∈ xs, ∀ d, I d → Ends job F (f x) (fun _ => I) d) (h : I d) :
    Ends job F (xs.forM f) (fun _ => I) d := by
  have hfold : xs.forM f = xs.foldlM (fun _ x => f x) ⟨⟩ := rfl
  rw [hfold]
  exact ends_foldlM (fun x hx _ => hstep x hx) h

end Writer

namespace Graph

variable {g : Graph}

/-- An entity that is written when the graph is laid out anew has a defect for which it is refused
with the error. -/
def Bars (g : Graph) (e : Error) : Prop :=
  ∃ (s : Section) (r : Ref s) (x : s.Content), g.get? r = some x ∧ g.Emitted s r ∧ s.Bars x e

/-- The output of the graph has outgrown what an offset can say, or its hidden-API flags alone
would. -/
def Outgrown (g : Graph) (stream : Stream) : Prop :=
  2 ^ 32 ≤ stream.length ∨ ∃ flags, g.hiddenapi = some flags ∧ 2 ^ 32 ≤ flags.byteSize

/-- Writing the graph may stop with the error at the draft. -/
def Refused (g : Graph) (e : Error) (d : Draft) : Prop :=
  e.LacksOffset ∨ g.Bars e ∨ e = .malformed .exceedsWord ∧ g.Outgrown d.stream

/-- Every entity is only refused for want of an offset or for its defects. -/
def Storable (g : Graph) : Prop :=
  ∀ (s : Section) (r : Ref s) (x : s.Content), g.get? r = some x → s.Storable x

end Graph

/-- There is room for the header, and only data items that are to be written have offsets. -/
structure Draft.Ready (g : Graph) (d : Draft) : Prop where
  byteSize_le : FileHeader.byteSize ≤ d.stream.length
  emitted : ∀ s : Section, s.rowSize? = none → ∀ r, d.layout.Assigned s r → g.Emitted s r

theorem toWord_eq_error {n : Nat} {e : Error} (h : toWord n = .error e) :
    e = .malformed .exceedsWord ∧ 2 ^ 32 ≤ n := by
  unfold toWord at h
  split at h
  · cases h
  · cases h
    exact ⟨rfl, Nat.le_of_not_lt ‹_›⟩

namespace Graph

variable {g : Graph} {d : Draft}

/-- A position that is too large for an offset lies in the output. -/
theorem refused_of_toWord {n : Nat} {e : Error} (h : toWord n = .error e)
    (hle : n ≤ d.stream.length) : g.Refused e d := by
  obtain ⟨rfl, hn⟩ := toWord_eq_error h
  exact .inr (.inr ⟨rfl, .inl (Nat.le_trans hn hle)⟩)

theorem Storable.refused (hg : g.Storable) {s : Section} {r : Ref s} {x : s.Content}
    (hx : g.get? r = some x) (hr : g.Emitted s r) {l : Layout} {e : Error}
    (h : s.encode l x = .error e) : g.Refused e d := by
  rcases hg s r x hx l e h with he | he
  · exact .inl he
  · exact .inr (.inl ⟨s, r, x, hx, hr, he⟩)

end Graph

namespace Draft.Ready

variable {g : Graph} {d : Draft} {s : Section}

theorem of_le (h : d.Ready g) {d' : Draft} (hlen : d.stream.length ≤ d'.stream.length)
    (hlayout : ∀ s : Section, s.rowSize? = none → ∀ r : Ref s,
      (d'.layout.place r).offset = (d.layout.place r).offset) : d'.Ready g := by
  refine ⟨Nat.le_trans h.byteSize_le hlen, fun s hs r ⟨o, ho⟩ => h.emitted s hs r ⟨o, ?_⟩⟩
  rwa [hlayout s hs] at ho

theorem changeStream (h : d.Ready g) {stream : Stream} (hlen : d.stream.length ≤ stream.length) :
    Draft.Ready g { d with stream := stream } :=
  h.of_le hlen fun _ _ _ => rfl

theorem setSectionOffset (h : d.Ready g) (o : Option UInt32) :
    Draft.Ready g { d with layout := d.layout.setSectionOffset s o } :=
  h.of_le le_rfl fun t _ r => by rw [Layout.place_setSectionOffset]

theorem setPlace (h : d.Ready g) {r : Ref s} (hr : g.Emitted s r) (p : Place) :
    Draft.Ready g { d with layout := d.layout.setPlace r p } := by
  refine ⟨h.byteSize_le, fun t ht r' ⟨o, ho⟩ => ?_⟩
  by_cases hs : s = t
  · subst hs
    rw [Layout.place_setPlace] at ho
    split at ho
    · rename_i heq
      exact heq ▸ hr
    · exact h.emitted s ht r' ⟨o, ho⟩
  · rw [Layout.place_setPlace_of_ne _ hs] at ho
    exact h.emitted t ht r' ⟨o, ho⟩

end Draft.Ready

/-- Some layout has the offset zero for a reference. -/
theorem Layout.exists_offsetOrZero {s : Section} (r : Option (Ref s)) :
    ∃ l : Layout, l.offsetOrZero r = .ok 0 := by
  cases r with
  | none => exact ⟨.empty, rfl⟩
  | some r =>
    refine ⟨Layout.empty.setPlace r ⟨some 0, 0⟩, Layout.offsetOf_eq_ok_iff.mpr ?_⟩
    rw [Layout.place_setPlace_self]

theorem Stream.length_le_alignTo (stream : Stream) (k : Nat) :
    stream.length ≤ (stream.alignTo k).length ∧
      (stream.alignTo k).position ≤ (stream.alignTo k).length := by
  simp only [Stream.alignTo, Stream.length_skip, Stream.position_skip]
  omega

theorem Stream.length_le_append (stream item : Stream) :
    stream.length ≤ (stream ++ item).length ∧
      stream.position + item.length ≤ (stream ++ item).length := by
  rw [Stream.length_append]
  omega

namespace Writer

variable {g : Graph} {d : Draft} {s : Section}

/-! ## Data items -/

/-- An item is placed at a position that fits an offset, or the output has outgrown it. -/
theorem ends_place {k : Nat} {o : Option UInt32} {subject : Unplaced} {Q : UInt32 → Draft → Prop}
    (h : ∀ start : UInt32, (d.stream.alignTo k).position = start.toNat →
      Q start { d with stream := d.stream.alignTo k }) :
    Ends (.relayout g) g.Refused (place o k subject) Q d := by
  have hoffsets : (Job.relayout g).options.computeOffsets = true := rfl
  unfold place
  rw [ends_bind, ends_computesOffsets, hoffsets, if_pos rfl]
  simp only [ends_bind, ends_changeStream, ends_tell, ends_ofExcept]
  exact ⟨fun start hstart => h start (toWord_eq_ok_iff.mp hstart),
    fun e he => Graph.refused_of_toWord he (d.stream.length_le_alignTo k).2⟩

theorem ends_writeItem (hg : g.Storable) {encode : Layout → s.Content → Except Error Stream}
    (hencode : ∀ l x, encode l x = s.encode l x) (h : d.Ready g) {r : Ref s}
    (hr : g.Emitted s r) (first : UInt32) :
    Ends (.relayout g) g.Refused (writeItem s encode first r) (fun _ => Draft.Ready g) d := by
  obtain ⟨x, hx⟩ := Graph.has_iff_exists.mp hr.has
  unfold writeItem
  rw [ends_bind, ends_read]
  simp only [Job.relayout, hx, ends_bind, ends_get]
  refine ends_place fun start hstart => ?_
  simp only [ends_bind, ends_get, ends_ofExcept, ends_changeStream, ends_tell, ends_changeLayout,
    ends_pure, hencode]
  refine ⟨fun item hitem => ⟨fun size _ => ?_, fun e he => ?_⟩, fun e he => hg.refused hx hr he⟩
  · refine Draft.Ready.setPlace (h.changeStream ?_) hr _
    exact Nat.le_trans (d.stream.length_le_alignTo _).1 (Stream.length_le_append ..).1
  · refine Graph.refused_of_toWord he ?_
    rw [Stream.position_append, (Section.tight_of_encode hitem).position_eq]
    exact Nat.le_trans (Nat.sub_le ..) (Stream.length_le_append ..).2

theorem ends_writeItems (hg : g.Storable) {encode : Layout → s.Content → Except Error Stream}
    (hencode : ∀ l x, encode l x = s.encode l x) (h : d.Ready g) {refs : Array (Ref s)}
    (hrefs : ∀ r ∈ refs, g.Emitted s r) :
    Ends (.relayout g) g.Refused (writeItems s refs encode) (fun _ => Draft.Ready g) d := by
  simp only [writeItems, ends_ite, ends_pure]
  refine ⟨fun _ => h, fun _ => ?_⟩
  refine (ends_foldlM (fun r hr first d' h' =>
    ends_writeItem hg hencode h' (hrefs r hr) first) h).bind fun first d' h' => ?_
  simp only [ends_bind, ends_computesOffsets, ends_get, ends_ite, ends_changeLayout, ends_pure]
  exact ⟨fun _ => h'.setSectionOffset _, fun _ => h'⟩

theorem ends_writeSection (hsound : g.Sound) (hg : g.Storable)
    (hemitted : ∀ r, g.Has s r → g.Emitted s r)
    {encode : Layout → s.Content → Except Error Stream}
    (hencode : ∀ l x, encode l x = s.encode l x) (h : d.Ready g) :
    Ends (.relayout g) g.Refused (writeSection s encode) (fun _ => Draft.Ready g) d := by
  unfold writeSection
  rw [ends_bind, ends_read]
  exact ends_writeItems hg hencode h fun r hr => hemitted r (hsound.mem_order.mp hr)

theorem ends_writeHiddenapi (h : d.Ready g) :
    Ends (.relayout g) g.Refused writeHiddenapi (fun _ => Draft.Ready g) d := by
  unfold writeHiddenapi
  rw [ends_bind, ends_read]
  cases hflags : (Job.relayout g).graph.hiddenapi with
  | none => exact h
  | some flags =>
    have hflags : g.hiddenapi = some flags := hflags
    simp only [ends_bind, ends_get]
    refine ends_place fun start hstart => ?_
    simp only [ends_bind, ends_ofExcept, ends_changeStream, ends_tell, ends_changeLayout]
    refine ⟨fun item hitem => ⟨fun size _ => ?_, fun e he => ?_⟩, fun e he => ?_⟩
    · refine h.of_le (Nat.le_trans (d.stream.length_le_alignTo _).1
        (Stream.length_le_append _ item).1) fun _ _ _ => rfl
    · refine Graph.refused_of_toWord he ?_
      rw [Stream.position_append, (HiddenApi.tight_of_encode hitem).position_eq]
      exact Nat.le_trans (Nat.sub_le ..) (Stream.length_le_append ..).2
    · simp only [HiddenApi.encode, Except.bind_eq_error_iff, Except.pure_ne_error, and_false,
        exists_false, or_false] at he
      obtain ⟨rfl, hsize⟩ := toWord_eq_error he
      exact .inr (.inr ⟨rfl, .inr ⟨flags, hflags, hsize⟩⟩)

/-! ## Bodies -/

theorem ends_codeRefs (hsound : g.Sound) (h : d.Ready g) :
    Ends (.relayout g) g.Refused codeRefs
      (fun refs d' => d' = d ∧ ∀ r ∈ refs, g.Emitted .codeItem r) d := by
  refine (@establishes_codeRefs g .relayout _ _ hsound).ends.mono ?_
  rintro refs d' ⟨rfl, -, hrefs⟩
  refine ⟨rfl, fun r hr => ?_⟩
  obtain ⟨hhas, huse | hassigned⟩ := (hrefs r).mp hr
  · exact ⟨hhas, huse⟩
  · exact h.emitted .codeItem rfl r hassigned

theorem ends_reserveBody (hg : g.Storable) (h : d.Ready g) {r : Ref .codeItem}
    (hr : g.Emitted .codeItem r) (first : Option UInt32) :
    Ends (.relayout g) g.Refused (reserveBody first r) (fun _ => Draft.Ready g) d := by
  obtain ⟨code, hcode⟩ := Graph.has_iff_exists.mp hr.has
  unfold reserveBody
  rw [ends_bind, ends_read]
  simp only [Job.relayout, hcode, ends_bind, ends_ofExcept]
  refine ⟨fun item hitem => ends_place fun start hstart => ?_, fun e he => ?_⟩
  · simp only [ends_changeStream, ends_changeLayout, ends_pure, ends_ofExcept, ends_bind]
    have hle : d.stream.length ≤ ((d.stream.alignTo Section.codeItem.alignment).skip
        item.length).length := by
      rw [Stream.length_skip]
      exact Nat.le_trans (d.stream.length_le_alignTo _).1 (Nat.le_max_left ..)
    refine ⟨fun size _ => ?_, fun e he => Graph.refused_of_toWord he ?_⟩
    · rw [Layout.setSize_setOffset]
      exact Draft.Ready.setPlace (h.changeStream hle) hr _
    · rw [Stream.length_skip]
      omega
  · obtain ⟨l, hl⟩ := Layout.exists_offsetOrZero code.debugInfo
    exact hg.refused hcode hr (l := l) (Except.bind_eq_error_iff.mpr (.inr ⟨0, hl, he⟩))

theorem ends_reserveCode (hsound : g.Sound) (hg : g.Storable) (h : d.Ready g) :
    Ends (.relayout g) g.Refused reserveCode (fun _ => Draft.Ready g) d := by
  have hoffsets : (Job.relayout g).options.computeOffsets = true := rfl
  unfold reserveCode
  rw [ends_bind, ends_computesOffsets, hoffsets, if_pos rfl]
  refine (ends_codeRefs hsound h).bind ?_
  rintro refs d ⟨rfl, hrefs⟩
  refine (ends_foldlM (fun r hr first d' h' => ends_reserveBody hg h' (hrefs r hr) first) h).bind
    fun first d' h' => ?_
  cases first with
  | none => exact h'
  | some start => exact h'.setSectionOffset _

theorem ends_writeBody (hg : g.Storable) (h : d.Ready g) {r : Ref .codeItem}
    (hr : g.Emitted .codeItem r) (first : UInt32) :
    Ends (.relayout g) g.Refused (writeBody first r) (fun _ => Draft.Ready g) d := by
  obtain ⟨code, hcode⟩ := Graph.has_iff_exists.mp hr.has
  have hencode : Section.codeItem.encode d.layout code =
      (do code.encode (← d.layout.offsetOrZero code.debugInfo)) := rfl
  unfold writeBody
  rw [ends_bind, ends_read]
  simp only [Job.relayout, hcode, ends_bind, ends_get, ends_ofExcept, ends_changeStream, ends_tell,
    Stream.position_append, Stream.position_seek, ends_changeLayout, ends_pure]
  refine ⟨fun o ho => ⟨fun debug hdebug => ⟨fun item hitem => ⟨fun size _ => ?_, fun e he => ?_⟩,
    fun e he => ?_⟩, fun e he => ?_⟩, fun e he => ?_⟩
  · exact h.of_le (Stream.length_le_append (d.stream.seek o.toNat) item).1
      fun _ _ r' => Layout.offset_place_setSize ..
  · refine Graph.refused_of_toWord he ?_
    rw [(CodeItem.tight_of_encode hitem).position_eq]
    exact Nat.le_trans (Nat.sub_le ..) (Stream.length_le_append (d.stream.seek o.toNat) item).2
  · refine hg.refused hcode hr (l := d.layout) ?_
    rw [hencode]
    exact Except.bind_eq_error_iff.mpr (.inr ⟨debug, hdebug, he⟩)
  · exact .inl (Layout.lacksOffset_of_offsetOrZero he)
  · exact .inl (Layout.lacksOffset_of_offsetOf he)

theorem ends_writeCode (hsound : g.Sound) (hg : g.Storable) (h : d.Ready g) :
    Ends (.relayout g) g.Refused writeCode (fun _ => Draft.Ready g) d := by
  unfold writeCode
  refine (ends_codeRefs hsound h).bind ?_
  rintro refs d ⟨rfl, hrefs⟩
  rw [ends_bind, ends_tell]
  refine (ends_foldlM (fun r hr first d' h' => ends_writeBody hg h' (hrefs r hr) first) h).bind
    fun first d' h' => ?_
  simp only [ends_bind, ends_get, ends_ite, ends_changeLayout, ends_computesOffsets,
    ends_changeStream, ends_pure]
  exact ⟨fun _ => ⟨fun _ => (h'.setSectionOffset _).changeStream le_rfl,
    fun _ => h'.setSectionOffset _⟩, fun _ => ⟨fun _ => h'.changeStream le_rfl, fun _ => h'⟩⟩

/-! ## Tables -/

theorem ends_reserveTable (hs : s.rowSize? ≠ none) (h : d.Ready g) :
    Ends (.relayout g) g.Refused (reserveTable s) (fun _ => Draft.Ready g) d := by
  unfold reserveTable
  simp only [ends_bind, ends_read, ends_computesOffsets, ends_ite, ends_changeStream, ends_tell,
    ends_changeLayout, ends_pure]
  refine ⟨fun _ => h.of_le ?_ fun t ht r => ?_, fun _ => h⟩
  · rw [Stream.length_skip]
    exact Nat.le_trans (d.stream.length_le_alignTo 4).1 (Nat.le_max_left ..)
  · have hne : s ≠ t := by
      rintro rfl
      exact hs ht
    exact congrArg Place.offset (@Layout.place_openTable_of_ne s d.layout (g.count s)
      (d.stream.alignTo 4).position (s.rowSize?.getD 0) t hne r)

theorem ends_fillTable (hsound : g.Sound) (hg : g.Storable)
    (hemitted : ∀ r, g.Has s r → g.Emitted s r) {row : Type} [Row row]
    {toRow : Layout → s.Content → Except Error row}
    (hrow : ∀ l x, s.encode l x = (do return Stream.ofBytes (Row.encode (← toRow l x))))
    (h : d.Ready g) :
    Ends (.relayout g) g.Refused (fillTable s toRow) (fun _ => Draft.Ready g) d := by
  simp only [fillTable, ends_bind, ends_read, ends_ite, ends_get, ends_pure]
  refine ⟨fun _ => h, fun _ => ?_⟩
  cases d.layout.sectionOffset s with
  | none => exact .inl ⟨_, rfl⟩
  | some o =>
    simp only [ends_bind, ends_changeStream]
    refine ends_forM (fun x hx d' h' => ?_) (h.changeStream le_rfl)
    simp only [ends_bind, ends_get, ends_ofExcept, ends_changeStream]
    refine ⟨fun out _ => h'.changeStream ?_, fun e he => ?_⟩
    · rw [Stream.length_write]
      exact Nat.le_max_left ..
    · obtain ⟨r, hr⟩ := hsound.exists_get?_of_mem hx
      refine hg.refused hr (hemitted r (Graph.has_of_get? hr)) (l := d'.layout) ?_
      rw [hrow, he]
      rfl

theorem ends_writeTable (hsound : g.Sound) (hg : g.Storable) (hs : s.rowSize? ≠ none)
    (hemitted : ∀ r, g.Has s r → g.Emitted s r) {row : Type} [Row row]
    {toRow : Layout → s.Content → Except Error row}
    (hrow : ∀ l x, s.encode l x = (do return Stream.ofBytes (Row.encode (← toRow l x))))
    (h : d.Ready g) :
    Ends (.relayout g) g.Refused (writeTable s toRow) (fun _ => Draft.Ready g) d :=
  (ends_reserveTable hs h).bind fun _ _ h' => ends_fillTable hsound hg hemitted hrow h'

theorem ends_writeTables (hsound : g.Sound) (hg : g.Storable) (h : d.Ready g) :
    Ends (.relayout g) g.Refused writeTables (fun _ => Draft.Ready g) d := by
  refine (ends_reserveTable (by decide) h).bind fun _ d h => ?_
  refine (ends_writeTable hsound hg (by decide) (fun _ => id) (fun _ _ => rfl) h).bind
    fun _ d h => ?_
  refine (ends_reserveTable (by decide) h).bind fun _ d h => ?_
  refine (ends_writeTable hsound hg (by decide) (fun _ => id) (fun _ _ => rfl) h).bind
    fun _ d h => ?_
  refine (ends_writeTable hsound hg (by decide) (fun _ => id) (fun _ _ => rfl) h).bind
    fun _ d h => ?_
  refine (ends_reserveTable (by decide) h).bind fun _ d h => ?_
  refine (ends_reserveTable (by decide) h).bind fun _ d h => ?_
  exact ends_writeTable hsound hg (by decide) (fun _ => id) (fun _ _ => rfl) h

theorem ends_fillTables (hsound : g.Sound) (hg : g.Storable) (h : d.Ready g) :
    Ends (.relayout g) g.Refused fillTables (fun _ => Draft.Ready g) d := by
  refine (ends_fillTable hsound hg (fun _ => id) (fun _ _ => rfl) h).bind fun _ d h => ?_
  refine (ends_fillTable hsound hg (fun _ => id) (fun _ _ => rfl) h).bind fun _ d h => ?_
  refine (ends_fillTable hsound hg (fun _ => id) (fun _ _ => rfl) h).bind fun _ d h => ?_
  exact ends_fillTable hsound hg (fun _ => id) (fun _ _ => rfl) h

/-! ## The whole image -/

theorem ends_openData (h : d.Ready g) :
    Ends (.relayout g) g.Refused openData (fun _ => Draft.Ready g) d := by
  have hoffsets : (Job.relayout g).options.computeOffsets = true := rfl
  unfold openData
  rw [ends_bind, ends_computesOffsets, hoffsets, if_pos rfl]
  simp only [ends_bind, ends_changeStream, ends_tell, ends_ofExcept, ends_changeLayout]
  have hlen := d.stream.length_le_alignTo dataAlignment
  exact ⟨fun start _ => h.of_le hlen.1 fun _ _ _ => rfl,
    fun e he => Graph.refused_of_toWord he hlen.2⟩

theorem ends_debugInfoRefs (hsound : g.Sound) (h : d.Ready g) :
    Ends (.relayout g) g.Refused debugInfoRefs
      (fun refs d' => d' = d ∧ ∀ r ∈ refs, g.Emitted .debugInfo r) d := by
  refine (@establishes_debugInfoRefs g .relayout _ _ hsound).ends.mono ?_
  rintro refs d' ⟨rfl, -, hrefs⟩
  refine ⟨rfl, fun r hr => ?_⟩
  exact (Graph.written_iff_emitted (h.emitted .codeItem rfl) (h.emitted .debugInfo rfl)).mp
    ((hrefs r).mp hr)

theorem ends_writeData (hsound : g.Sound) (hg : g.Storable) (h : d.Ready g) :
    Ends (.relayout g) g.Refused writeData (fun _ => Draft.Ready g) d := by
  unfold writeData
  refine (ends_reserveCode hsound hg h).bind fun _ d h => ?_
  refine (ends_debugInfoRefs hsound h).bind ?_
  rintro refs d ⟨rfl, hrefs⟩
  refine (ends_writeItems hg (fun _ _ => rfl) h hrefs).bind fun _ d h => ?_
  refine (ends_writeCode hsound hg h).bind fun _ d h => ?_
  refine (ends_writeSection hsound hg (fun _ => id) (fun _ _ => rfl) h).bind fun _ d h => ?_
  refine (ends_writeSection hsound hg (fun _ => id) (fun _ _ => rfl) h).bind fun _ d h => ?_
  refine (ends_writeSection hsound hg (fun _ => id) (fun _ _ => rfl) h).bind fun _ d h => ?_
  refine (ends_writeSection hsound hg (fun _ => id) (fun _ _ => rfl) h).bind fun _ d h => ?_
  refine (ends_writeSection hsound hg (fun _ => id) (fun _ _ => rfl) h).bind fun _ d h => ?_
  refine (ends_writeSection hsound hg (fun _ => id) (fun _ _ => rfl) h).bind fun _ d h => ?_
  refine (ends_writeSection hsound hg (fun _ => id) (fun _ _ => rfl) h).bind fun _ d h => ?_
  refine (ends_writeSection hsound hg (fun _ => id) (fun _ _ => rfl) h).bind fun _ d h => ?_
  exact ends_writeHiddenapi h

/-- The counts of the map list fit their fields. -/
theorem lacksOffset_of_mapListOf (hsound : g.Sound) {l : Layout} {e : Error}
    (h : mapListOf g l = .error e) : e.LacksOffset := by
  obtain ⟨c, hc, he⟩ := exists_of_mapListOf_eq_error h
  have hcount : c.count < 2 ^ 32 := by
    obtain rfl | ⟨s, rfl⟩ | rfl | ⟨-, rfl⟩ := mem_mapCandidates.mp hc
    · simp
    · have hsize : g.count s < 2 ^ 32 := (hsound.coherent s).size_lt
      have hplaced : placedCount g l s < 2 ^ 32 := by
        refine Nat.lt_of_le_of_lt (Array.size_filter_le ..) ?_
        rwa [(hsound.coherent s).size_order]
      cases s <;> assumption
    · simp
    · simp
  unfold MapCandidate.entry? at he
  split at he
  · cases he
  · split at he
    · cases he
      exact ⟨_, rfl⟩
    · simp only [Except.bind_eq_error_iff, toWord_ne_error hcount, Except.pure_ne_error, and_false,
        exists_false, or_false] at he

theorem ends_writeMapList (hsound : g.Sound) (h : d.Ready g) :
    Ends (.relayout g) g.Refused writeMapList
      (fun _ d' => d'.Ready g ∧ d'.stream.position ≤ d'.stream.length) d := by
  have hoffsets : (Job.relayout g).options.computeOffsets = true := rfl
  unfold writeMapList
  rw [ends_bind, ends_computesOffsets, hoffsets, if_pos rfl]
  simp only [if_true, ends_bind, ends_changeStream, ends_tell, ends_ofExcept, ends_changeLayout,
    ends_read, ends_get, ends_computesOffsets, hoffsets]
  have hopen := (d.stream.seek d.stream.length).length_le_alignTo dataAlignment
  refine ⟨fun offset _ => ⟨fun list hlist => ⟨fun bytes _ => ⟨fun stop _ => ⟨?_, ?_⟩,
    fun e he => ?_⟩, fun e he => ?_⟩, fun e he => .inl (lacksOffset_of_mapListOf hsound he)⟩,
    fun e he => Graph.refused_of_toWord he hopen.2⟩
  · refine h.of_le (Nat.le_trans hopen.1 ?_) fun _ _ _ => rfl
    refine Nat.le_trans ?_ (Stream.length_le_alignTo ..).1
    rw [Stream.length_write]
    exact Nat.le_max_left ..
  · exact (Stream.length_le_alignTo ..).2
  · exact Graph.refused_of_toWord he (Stream.length_le_alignTo ..).2
  · have hsize := size_entries_mapListOf_le hlist
    simp only [MapList.encode, Except.bind_eq_error_iff, Except.pure_ne_error, and_false,
      exists_false, or_false] at he
    exact absurd he (toWord_ne_error (by omega))

theorem ends_writeLinkData (h : d.Ready g) (hpos : d.stream.position ≤ d.stream.length) :
    Ends (.relayout g) g.Refused writeLinkData
      (fun _ d' => d'.Ready g ∧ g.linkData.size ≤ d'.stream.length) d := by
  have hoffsets : (Job.relayout g).options.computeOffsets = true := rfl
  unfold writeLinkData
  rw [ends_bind, ends_read, ends_ite]
  constructor
  · intro hempty
    have hsize : g.linkData.size = 0 := by simpa [Job.relayout] using hempty
    simp only [ends_bind, ends_computesOffsets, hoffsets, if_true, ends_changeLayout, ends_pure]
    exact ⟨h.of_le le_rfl fun _ _ _ => rfl, hsize ▸ Nat.zero_le _⟩
  · intro _
    simp only [ends_bind, ends_computesOffsets, hoffsets, if_true, ends_changeLayout, ends_tell,
      ends_ofExcept, ends_changeStream]
    refine ⟨fun offset _ => ⟨h.of_le ?_ fun _ _ _ => rfl, ?_⟩,
      fun e he => Graph.refused_of_toWord he hpos⟩
    · rw [Stream.length_write]
      exact Nat.le_max_left ..
    · change _ ≤ (d.stream.write g.linkData).length
      rw [Stream.length_write]
      omega

/-- The header of a graph fits its fields. -/
theorem headerOf_ne_error (hsound : g.Sound) (hlink : g.linkData.size < 2 ^ 32) {l : Layout}
    {e : Error} : headerOf g l ≠ .error e := by
  have hrange (s : Section) : ¬ tableRange g l s = .error e := by
    simp only [tableRange, Except.bind_eq_error_iff, Except.pure_ne_error, and_false, exists_false,
      or_false]
    exact toWord_ne_error (hsound.coherent s).size_lt
  simp only [headerOf, ne_eq, Except.bind_eq_error_iff, Except.pure_ne_error, and_false,
    exists_false, or_false, hrange, toWord_ne_error hlink, not_false_eq_true]

theorem ends_finish (hsound : g.Sound) (h : d.Ready g)
    (hlink : g.linkData.size ≤ d.stream.length) :
    Ends (.relayout g) g.Refused (do stampHeader (← closeImage)) (fun _ _ => True) d := by
  have hoffsets : (Job.relayout g).options.computeOffsets = true := rfl
  unfold closeImage stampHeader
  simp only [ends_bind, ends_computesOffsets, hoffsets, if_true, ends_changeLayout, ends_ofExcept,
    ends_get, ends_read, ends_pure]
  refine ⟨fun fileSize hsize => ⟨fun header _ => ⟨fun _ _ => trivial, fun e he => ?_⟩,
    fun e he => ?_⟩, fun e he => Graph.refused_of_toWord he le_rfl⟩
  · rw [toWord_eq_ok_iff] at hsize
    have hroom := h.byteSize_le
    unfold FileHeader.store at he
    rw [Stream.size_contents, if_neg (by omega)] at he
    cases he
  · obtain ⟨hlt, -⟩ := toWord_eq_ok_iff_lt.mp hsize
    exact absurd he (headerOf_ne_error hsound (Nat.lt_of_le_of_lt hlink hlt))

theorem ends_writeImage (hsound : g.Sound) (hg : g.Storable) (layout : Layout) :
    Ends (.relayout g) g.Refused writeImage (fun _ _ => True) ⟨∅, layout⟩ := by
  have hoffsets : (Job.relayout g).options.computeOffsets = true := rfl
  have hready : Draft.Ready g ⟨(∅ : Stream).skip FileHeader.byteSize, layout.clearOffsets⟩ := by
    refine ⟨by rw [Stream.length_skip]; exact Nat.le_max_right .., fun s _ r ⟨o, ho⟩ => ?_⟩
    rw [Layout.place_clearOffsets] at ho
    cases ho
  unfold writeImage
  rw [ends_bind, ends_computesOffsets, hoffsets, if_pos rfl]
  rw [ends_bind, ends_changeLayout, ends_bind, ends_changeStream]
  refine (ends_writeTables hsound hg hready).bind fun _ d h => ?_
  refine (ends_openData h).bind fun _ d h => ?_
  refine (ends_writeData hsound hg h).bind fun _ d h => ?_
  refine (ends_fillTables hsound hg h).bind fun _ d h => ?_
  refine (ends_writeMapList hsound h).bind fun _ d h => ?_
  refine (ends_writeLinkData h.1 h.2).bind fun _ d h => ?_
  exact ends_finish hsound h.1 h.2

end Writer

namespace Graph

variable {g : Graph} {layout : Layout}

/-- The output of the graph outgrows what an offset can say before it has been laid out anew. -/
def Outgrows (g : Graph) (layout : Layout) : Prop :=
  ∃ e d, Writer.writeImage (.relayout g) ⟨∅, layout⟩ = .error e d ∧ g.Outgrown d.stream

/-- A graph is laid out anew unless an entity of it is refused for its defects, or the output
outgrows what an offset can say. If it is laid out, no entity that is written has a defect. -/
theorem write_relayout_outcome (hsound : g.Sound) (hg : g.Storable) (layout : Layout) :
    (∃ image l, g.write .relayout layout = (.ok image, l) ∧ ∀ e, ¬ g.Bars e) ∨
      ∃ e l, g.write .relayout layout = (.error e, l) ∧
        (g.Bars e ∨ e = .malformed .exceedsWord ∧ g.Outgrows layout) := by
  cases hwrite : g.write .relayout layout with
  | mk outcome l =>
    cases outcome with
    | ok image =>
      obtain ⟨blocks, hfresh⟩ := write_relayout hsound hwrite
      refine .inl ⟨image, l, rfl, ?_⟩
      rintro e ⟨s, r, x, hx, hr, hbars⟩
      have hitem (hs : s.rowSize? = none) : ∃ item, s.encode l x = .ok item := by
        obtain ⟨o, ho⟩ := (hfresh.assigned_iff s hs r).mpr hr
        obtain ⟨item, hitem, -⟩ := hfresh.heldAt s r x o hx ho
        exact ⟨item, hitem⟩
      cases s with
      | codeItem =>
        obtain ⟨item, hitem⟩ := hitem rfl
        obtain ⟨off, -, hitem⟩ := Except.bind_eq_ok_iff.mp hitem
        obtain ⟨o, hoverlaps, -⟩ := hbars
        exact CodeItem.not_overlaps_of_encode hitem o hoverlaps
      | classData =>
        obtain ⟨item, hitem⟩ := hitem rfl
        obtain ⟨bytes, hbytes, -⟩ := Except.bind_eq_ok_iff.mp hitem
        obtain ⟨i, hrepeats, -⟩ := hbars
        exact ClassData.not_repeats_of_encode hbytes i hrepeats
      | _ => exact hbars
    | error e =>
      refine .inr ⟨e, l, rfl, ?_⟩
      have hends := Writer.ends_writeImage hsound hg layout
      have hlacks := write_relayout_error hsound hwrite
      unfold write at hwrite
      cases hrun : Writer.writeImage ⟨g, .relayout, g.liveCode⟩ ⟨∅, layout⟩ with
      | ok image d =>
        rw [hrun] at hwrite
        cases hwrite
      | error e' d =>
        rw [hrun] at hwrite
        cases hwrite
        rcases hends.of_error hrun with he | he | ⟨he, hout⟩
        · exact absurd he hlacks
        · exact .inl he
        · exact .inr ⟨he, _, d, hrun, hout⟩

end Graph

end DexGraph
