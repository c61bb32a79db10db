import DexGraph.Proofs.Assembly.Items

/-!
# Reading items again

When everything that an item refers to has been found, the item can be read again: it has the same
contents and ends where it did, and reading it changes nothing. `Build.reading` is the step by which
the items of a section are read when they are met for the first time (`Build.itemAt_reading`), and
`Assembly.Valid.retraces_reading` says that in a valid assembly it reads again whatever the survey of
the section reads, within the image.
-/

namespace DexGraph

variable {α β : Type} {source : Source} {a : Assembly}

/-- From every position of the image the step reads what the survey reads, goes forward within the
image and changes nothing. -/
def Reading.Retraces (source : Source) (a : Assembly) (m : Reading α) (d : Survey α) : Prop :=
  ∀ p x met q, d.Reads (a.view source.data) source.data p x met q → p ≤ source.data.size →
    m.run p source a = .ok ((x, q), a) ∧ p ≤ q ∧ q ≤ source.data.size

/-- The step gives what the survey gives, and changes nothing. -/
def Build.Retraces (source : Source) (a : Assembly) (b : Build α) (d : Survey α) : Prop :=
  (liftM b : Reading α).Retraces source a d

/-! ## Rules -/

namespace Reading

theorem retraces_pure {x : α} : (pure x : Reading α).Retraces source a (pure x) := by
  intro p y met q h hp
  obtain ⟨rfl, -, rfl⟩ := Survey.reads_pure_iff.mp h
  exact ⟨rfl, Nat.le_refl _, hp⟩

theorem Retraces.bind {m : Reading α} {f : α → Reading β} {d : Survey α} {e : α → Survey β}
    (hm : m.Retraces source a d) (hf : ∀ x, (f x).Retraces source a (e x)) :
    (m >>= f).Retraces source a (d >>= e) := by
  intro p y met q h hp
  obtain ⟨x, first, r, rest, hx, hy, -⟩ := Survey.reads_bind_iff.mp h
  obtain ⟨hfirst, hpr, hr⟩ := hm p x first r hx hp
  obtain ⟨hrest, hrq, hq⟩ := hf x r y rest q hy hr
  refine ⟨?_, hpr.trans hrq, hq⟩
  rw [StateT.run_bind, Build.run_bind, hfirst]
  exact hrest

theorem retraces_decodeWith {d : Graph → Decoder α} (hd : Decoder.Steady d) :
    (decodeWith d).Retraces source a (Survey.decodeWith d) := by
  intro p x met q h hp
  obtain ⟨hreads, -⟩ := Survey.reads_decodeWith_iff.mp h
  exact ⟨Build.run_decodeWith hreads, hd.forward _ _ _ _ _ hreads hp⟩

theorem retraces_decode {d : Decoder α} (hd : Decoder.Steady fun _ => d) :
    (decode d).Retraces source a (Survey.decode d) :=
  retraces_decodeWith hd

theorem retraces_refuse {defect : Defect} {e : Error} :
    (liftM (Build.refuse defect : Build α) : Reading α).Retraces source a
      (Survey.decode (Decoder.fail e)) :=
  fun _ _ _ _ h _ => absurd (Survey.reads_decode_iff.mp h).1 Decoder.not_reads_fail

theorem Retraces.ite {c : Prop} [Decidable c] {m m' : Reading α} {d d' : Survey α}
    (h : m.Retraces source a d) (h' : m'.Retraces source a d') :
    (if c then m else m').Retraces source a (if c then d else d') := by
  split
  · exact h
  · exact h'

theorem Retraces.gather {m : Reading α} {d : Survey α} (h : m.Retraces source a d) {n : Nat} :
    (DexGraph.gather n m).Retraces source a (DexGraph.gather n d) := by
  suffices hfrom : ∀ n done, (gatherFrom done n m).Retraces source a (gatherFrom done n d) from
    hfrom n #[]
  intro n
  induction n with
  | zero => exact fun _ => retraces_pure
  | succ n ih => exact fun done => h.bind fun x => ih (done.push x)

end Reading

namespace Build

/-- A step of which it is known what it comes to, and a survey that stays where it is. -/
theorem retraces_of_run {b : Build α} {d : Survey α}
    (h : ∀ p x met q, d.Reads (a.view source.data) source.data p x met q →
      b source a = .ok (x, a) ∧ q = p) : b.Retraces source a d := by
  intro p x met q hreads hp
  obtain ⟨hrun, rfl⟩ := h p x met q hreads
  refine ⟨?_, Nat.le_refl _, hp⟩
  change (b >>= fun y => pure (y, q)) source a = _
  rw [run_bind, hrun]
  rfl

theorem retraces_ofExcept (x : Except Error α) :
    (ofExcept x).Retraces source a (Survey.decode (Decoder.ofExcept x)) := by
  refine retraces_of_run fun p y met q h => ?_
  obtain ⟨rfl, rfl⟩ := Decoder.reads_ofExcept_iff.mp (Survey.reads_decode_iff.mp h).1
  exact ⟨rfl, rfl⟩

theorem retraces_resolve {s : Section} {index : UInt32} :
    (resolve s index).Retraces source a (Survey.resolve s index) := by
  refine retraces_of_run fun p r met q h => ?_
  obtain ⟨hr, rfl⟩ := Decoder.reads_ofExcept_iff.mp (Survey.reads_decodeWith_iff.mp h).1
  have hresolve : a.graph.resolve s index = .ok r := hr
  refine ⟨?_, rfl⟩
  change (a.graph.resolve s index).map (·, a) = _
  rw [hresolve]
  rfl

/-! ## Items that have been found -/

variable {s : Section} {o : UInt32}

/-- An item that has been found is not read. -/
theorem itemOf_of_found {key : ItemKey} {p : Nat} {read : Reading s.Content} {r : Ref s}
    (h : (a.known.get s).get? key = some r) : itemOf s key p read source a = .ok (r, a) := by
  rw [itemOf, run_known?_bind, h]
  rfl

theorem itemAt_of_found {read : Reading s.Content} (hcode : s ≠ .codeItem) {r : Ref s}
    (h : (a.view source.data).find? s o = some r) : itemAt s o read source a = .ok (r, a) := by
  refine itemOf_of_found ?_
  rw [← ItemKey.ofItem_of_ne hcode source.data]
  exact h

theorem retraces_itemAt {read : Reading s.Content} (hcode : s ≠ .codeItem) :
    (itemAt s o read).Retraces source a (Survey.item s o) := by
  refine retraces_of_run fun p r met q h => ?_
  obtain ⟨hr, -, rfl⟩ := Survey.reads_item_iff.mp h
  exact ⟨itemAt_of_found hcode hr, rfl⟩

/-- A step that takes the item of an offset, if it gives what has been found there. -/
theorem retraces_item? {b : Build (Option (Ref s))} (hzero : o = 0 → b = pure none)
    (hfound : o ≠ 0 → ∀ r, (a.view source.data).find? s o = some r →
      b source a = .ok (some r, a)) : b.Retraces source a (Survey.item? s o) := by
  refine retraces_of_run fun p r met q h => ?_
  obtain ⟨hr, hsome, -, rfl⟩ := Survey.reads_item?_iff.mp h
  refine ⟨?_, rfl⟩
  by_cases ho : o = 0
  · rw [hzero ho, hr, if_pos ho]
    rfl
  · obtain ⟨r', rfl⟩ := Option.isSome_iff_exists.mp (hsome ho)
    rw [if_neg ho] at hr
    exact hfound ho r' hr.symm

theorem retraces_itemAt? {read : Reading s.Content} (hcode : s ≠ .codeItem) :
    (itemAt? s o read).Retraces source a (Survey.item? s o) := by
  unfold itemAt?
  refine retraces_item? (fun ho => if_pos (by simp [ho])) fun ho r hr => ?_
  rw [if_neg (by simpa using ho), run_bind, itemAt_of_found hcode hr]
  rfl

/-- The header of a body that has been found is read again, and its key is the same. -/
theorem retraces_codeItem? (ha : a.Valid source) :
    (codeItem? o).Retraces source a (Survey.item? .codeItem o) := by
  unfold codeItem?
  refine retraces_item? (fun ho => if_pos (by simp [ho])) fun ho r hr => ?_
  obtain ⟨x, hx⟩ := Graph.has_iff_exists.mp (ha.closed .codeItem o r rfl hr)
  obtain ⟨o', met, q, ho', hreads, -⟩ := ha.placed .codeItem r x rfl hx
  obtain rfl := ha.find_inj rfl hr ho'
  obtain ⟨header, first, start, rest, hheader, -⟩ := Survey.reads_bind_iff.mp (hreads _ (.refl _))
  replace hheader := (Survey.reads_decode_iff.mp hheader).1
  have hkey : (a.known.get .codeItem).get? ⟨o, header.debugInfoOffset⟩ = some r := by
    rw [← ItemKey.ofItem_codeItem hheader]
    exact hr
  have hhead : (Reading.decode CodeHeader.decode).run o.toNat source a =
      .ok ((header, start), a) := run_decodeWith (d := fun _ => CodeHeader.decode) hheader
  rw [if_neg (by simpa using ho), run_bind, hhead]
  dsimp only
  rw [run_bind, itemOf_of_found hkey]
  rfl

theorem retraces_memberAnnotations {member notes : Section}
    {notesAt? : UInt32 → Build (Option (Ref notes))}
    (h : ∀ o, (notesAt? o).Retraces source a (Survey.item? notes o)) :
    (memberAnnotations member notes notesAt?).Retraces source a
      (MemberAnnotations.survey member notes) :=
  (Reading.retraces_decode Decoder.steady_word).bind fun _ =>
    (Reading.retraces_decode Decoder.steady_word).bind fun offset =>
    Reading.Retraces.bind retraces_resolve fun _ => Reading.Retraces.bind (h offset) fun _ =>
    Reading.retraces_pure

theorem retraces_methodsFrom (ha : a.Valid source) (previous : UInt32) (methods : Array MethodItem)
    (count : Nat) : (methodsFrom previous methods count).Retraces source a
      (MethodItem.surveyFrom previous methods count) := by
  have hleb : (Reading.decode Decoder.unsignedLeb).Retraces source a
      (Survey.decode Decoder.unsignedLeb) := Reading.retraces_decode Decoder.steady_unsignedLeb
  induction count generalizing previous methods with
  | zero => exact Reading.retraces_pure
  | succ count ih =>
    exact hleb.bind fun _ => Reading.Retraces.bind (retraces_ofExcept _) fun _ =>
      hleb.bind fun _ => hleb.bind fun _ => Reading.Retraces.bind retraces_resolve fun _ =>
      Reading.Retraces.bind (retraces_codeItem? ha) fun _ => ih _ _

/-! ## The items of a section -/

open Reading (decode decodeWith)

/-- How a body is read when its header has been read. -/
def bodyAfter (header : CodeHeader) : Reading CodeItem := do
  let debugInfo ← debugInfo? header.debugInfoOffset
  decodeWith fun g => CodeItem.decodeAfter g header debugInfo

/-- How the items of a section are read when they are met for the first time; errors name the
offset. The entries of tables are not read by themselves. -/
def reading : (s : Section) → UInt32 → Reading s.Content
  | .stringData, _ => decode StringData.decode
  | .typeList, _ => decodeWith TypeList.decode
  | .encodedArray, _ => do
    return ⟨← decodeWith Value.decodeArray⟩
  | .annotationItem, offset => do
    let code ← decode Decoder.byte
    match Visibility.ofCode? code with
    | some visibility => return ⟨visibility, ← decodeWith Annotation.decode⟩
    | none => refuse (.visibility offset code)
  | .annotationSet, _ => do
    let count ← decode Decoder.word
    let items ← gather count.toNat do
      let itemOffset ← decode Decoder.word
      if itemOffset == 0 then return none else return some (← annotationItem itemOffset)
    return ⟨items.filterMap id⟩
  | .annotationSetRefList, _ => do
    let count ← decode Decoder.word
    let items ← gather count.toNat do
      let setOffset ← decode Decoder.word
      annotationSet? setOffset
    return ⟨items⟩
  | .annotationsDirectory, _ => do
    let classOffset ← decode Decoder.word
    let fieldCount ← decode Decoder.word
    let methodCount ← decode Decoder.word
    let parameterCount ← decode Decoder.word
    let classAnnotations ← annotationSet? classOffset
    let fields ← gather fieldCount.toNat (memberAnnotations .fieldId _ annotationSet?)
    let methods ← gather methodCount.toNat (memberAnnotations .methodId _ annotationSet?)
    let parameters ← gather parameterCount.toNat
      (memberAnnotations .methodId _ annotationSetRefList?)
    return ⟨classAnnotations, fields, methods, parameters⟩
  | .debugInfo, _ => decode DebugInfo.decode
  | .codeItem, _ => decode CodeHeader.decode >>= bodyAfter
  | .classData, _ => classMembers
  | .stringId, _ | .typeId, _ | .protoId, _ | .fieldId, _ | .methodId, _ | .classDef, _
  | .callSiteId, _ | .methodHandle, _ => ofExcept (.error .outOfBounds)

/-- Taking the item at an offset reads it in this way. Of a body the header is read each time, before
the body is looked up; the members of a class are read by `classMembers` itself. -/
theorem itemAt_reading (o : UInt32) :
    stringData o = itemAt .stringData o (reading .stringData o) ∧
    typeList? o = itemAt? .typeList o (reading .typeList o) ∧
    encodedArray? o = itemAt? .encodedArray o (reading .encodedArray o) ∧
    annotationItem o = itemAt .annotationItem o (reading .annotationItem o) ∧
    annotationSet? o = itemAt? .annotationSet o (reading .annotationSet o) ∧
    annotationSetRefList? o = itemAt? .annotationSetRefList o (reading .annotationSetRefList o) ∧
    annotationsDirectory? o = itemAt? .annotationsDirectory o (reading .annotationsDirectory o) ∧
    debugInfo? o = itemAt? .debugInfo o (reading .debugInfo o) ∧
    codeItem? o = (if o == 0 then return none else do
      let (header, start) ← (decode CodeHeader.decode).run o.toNat
      return some (← itemOf .codeItem ⟨o, header.debugInfoOffset⟩ start (bodyAfter header))) :=
  ⟨rfl, rfl, rfl, rfl, rfl, rfl, rfl, rfl, rfl⟩

end Build

open Build Decoder in
/-- In a valid assembly an item that a survey reads is read again. -/
theorem Assembly.Valid.retraces_reading (ha : a.Valid source) {s : Section} (hs : s.rowSize? = none)
    (o : UInt32) : (reading s o).Retraces source a s.survey := by
  have hword : (Reading.decode word).Retraces source a (Survey.decode word) :=
    Reading.retraces_decode steady_word
  have hleb : (Reading.decode unsignedLeb).Retraces source a (Survey.decode unsignedLeb) :=
    Reading.retraces_decode steady_unsignedLeb
  have hset (o : UInt32) : (annotationSet? o).Retraces source a (Survey.item? .annotationSet o) :=
    retraces_itemAt? (by decide)
  cases s with
  | stringData => exact Reading.retraces_decode StringData.steady_decode
  | typeList => exact Reading.retraces_decodeWith TypeList.steady_decode
  | encodedArray =>
    exact (Reading.retraces_decodeWith Value.steady_decodeArray).bind fun _ =>
      Reading.retraces_pure
  | annotationItem =>
    refine (Reading.retraces_decode steady_byte).bind fun code => ?_
    cases Visibility.ofCode? code with
    | none => exact Reading.retraces_refuse
    | some visibility =>
      exact (Reading.retraces_decodeWith Annotation.steady_decode).bind fun _ =>
        Reading.retraces_pure
  | annotationSet =>
    refine hword.bind fun _ => (Reading.Retraces.gather (hword.bind fun _ => .ite
      Reading.retraces_pure (Reading.Retraces.bind ?_ fun _ => Reading.retraces_pure))).bind
      fun _ => Reading.retraces_pure
    exact retraces_itemAt (by decide)
  | annotationSetRefList =>
    exact hword.bind fun _ => (Reading.Retraces.gather (hword.bind fun _ => hset _)).bind fun _ =>
      Reading.retraces_pure
  | annotationsDirectory =>
    have hlist (o : UInt32) : (annotationSetRefList? o).Retraces source a
        (Survey.item? .annotationSetRefList o) := retraces_itemAt? (by decide)
    exact hword.bind fun _ => hword.bind fun _ => hword.bind fun _ => hword.bind fun _ =>
      Reading.Retraces.bind (hset _) fun _ => (retraces_memberAnnotations hset).gather.bind fun _ =>
      (retraces_memberAnnotations hset).gather.bind fun _ =>
      (retraces_memberAnnotations hlist).gather.bind fun _ => Reading.retraces_pure
  | debugInfo => exact Reading.retraces_decode DebugInfo.steady_decode
  | codeItem =>
    have hinfo (o : UInt32) : (debugInfo? o).Retraces source a (Survey.item? .debugInfo o) :=
      retraces_itemAt? (by decide)
    exact (Reading.retraces_decode CodeHeader.steady_decode).bind fun header =>
      Reading.Retraces.bind (hinfo _) fun debugInfo =>
      Reading.retraces_decodeWith (CodeItem.steady_decodeAfter header debugInfo)
  | classData =>
    exact hleb.bind fun staticCount => hleb.bind fun instanceCount => hleb.bind fun _ =>
      hleb.bind fun _ =>
      (Reading.retraces_decodeWith (FieldItem.steady_decodeList staticCount)).bind fun _ =>
      (Reading.retraces_decodeWith (FieldItem.steady_decodeList instanceCount)).bind fun _ =>
      (retraces_methodsFrom ha _ _ _).bind fun _ => (retraces_methodsFrom ha _ _ _).bind fun _ =>
      Reading.retraces_pure
  | _ => cases hs

end DexGraph
