import DexGraph.Proofs.Assembly.Ensures
import DexGraph.Proofs.Codec.CodeRecovery
import DexGraph.Proofs.Codec.Entity
import DexGraph.Proofs.Codec.ValueSize

/-!
# What is read can nearly always be written

Counts and indices that are read fit the fields from which they come, and so they fit them again
when they are written. Two kinds of entities are read and then refused: class data in which an
index is repeated, since a difference of zero is read but not written, and bodies with a handler
that lies inside the number of handlers. `Section.survey_ensures_storable` says that, offsets apart,
nothing else is refused.
-/

namespace DexGraph

theorem toHalfWord_ne_error {n : Nat} (h : n < 2 ^ 16) {e : Error} : toHalfWord n ≠ .error e := by
  unfold toHalfWord
  rw [if_pos (show n < 0x10000 from h)]
  exact nofun

namespace Decoder

variable {α : Type} {d : Decoder α}

theorem Ensures.and {P R : α → Prop} (h : d.Ensures P) (h' : d.Ensures R) :
    d.Ensures fun a => P a ∧ R a :=
  fun data p a q hread => ⟨h data p a q hread, h' data p a q hread⟩

theorem ensures_size_gather {n : Nat} : (gather n d).Ensures fun xs => xs.size = n :=
  fun _ _ _ _ h => (reads_gather_iff.mp h).1

end Decoder

/-- The indices of the members of a class, list by list. -/
def ClassData.indexLists (c : ClassData) : List (List UInt32) :=
  [c.staticFields.toList.map (·.field.slot), c.instanceFields.toList.map (·.field.slot),
    c.directMethods.toList.map (·.method.slot), c.virtualMethods.toList.map (·.method.slot)]

/-- An index stands right behind itself in one of the lists of members. -/
def ClassData.Repeats (c : ClassData) (index : UInt32) : Prop :=
  ∃ indices ∈ c.indexLists, [index, index] <:+: indices

/-- A handler with this offset begins inside the number of handlers. -/
def CodeItem.Overlaps (code : CodeItem) (listOffset : UInt16) : Prop :=
  code.tries ≠ #[] ∧ (∃ h ∈ code.handlers, h.listOffset = listOffset) ∧
    listOffset.toNat < code.countBytes.size

/-- The entity has a defect, though it may have been read, for which it is refused with the error. -/
def Section.Bars : (s : Section) → s.Content → Error → Prop
  | .codeItem, code, e => ∃ o, code.Overlaps o ∧ e = .malformed (.handlerOverlapsCount o)
  | .classData, c, e => ∃ i, c.Repeats i ∧ e = .malformed (.membersOutOfOrder i i)
  | _, _, _ => False

/-- The entity is only refused for want of an offset or for its defects. -/
def Section.Storable (s : Section) (x : s.Content) : Prop :=
  ∀ l e, s.encode l x = .error e → e.LacksOffset ∨ s.Bars x e

namespace Layout

variable {l : Layout} {s : Section} {e : Error}

theorem lacksOffset_of_offsetOf {r : Ref s} (h : l.offsetOf r = .error e) : e.LacksOffset := by
  unfold offsetOf at h
  split at h
  · cases h
  · cases h
    exact ⟨_, rfl⟩

theorem lacksOffset_of_offsetOrZero {r : Option (Ref s)} (h : l.offsetOrZero r = .error e) :
    e.LacksOffset := by
  cases r with
  | none => cases h
  | some r => exact lacksOffset_of_offsetOf h

end Layout

/-! ## Members in order -/

theorem memberDelta_eq_error {last : Option UInt32} {index : UInt32} {e : Error}
    (h : memberDelta last index = .error e) :
    ∃ p, last = some p ∧ index ≤ p ∧ e = .malformed (.membersOutOfOrder index p) := by
  unfold memberDelta at h
  split at h
  · cases h
  · rename_i p
    split at h
    · cases h
      exact ⟨p, rfl, ‹_›, rfl⟩
    · cases h

/-- A list of members in ascending order is refused for the details of a member or because an index
stands right behind itself. -/
theorem foldlM_member_eq_error {α : Type} {index : α → UInt32} {details : α → Except Error Bytes}
    {step : MemberBytes → α → Except Error MemberBytes}
    (hstep : ∀ out x, step out x = do
      let delta ← memberDelta out.last (index x)
      let detail ← details x
      return ⟨out.bytes ++ Leb128.encodeUnsigned delta ++ detail, some (index x)⟩)
    {xs : List α} {start : MemberBytes} {e : Error}
    (hsorted : (start.last.toList ++ xs.map index).Pairwise (· ≤ ·))
    (h : xs.foldlM step start = .error e) :
    (∃ x ∈ xs, details x = .error e) ∨ ∃ i, [i, i] <:+: start.last.toList ++ xs.map index ∧
      e = .malformed (.membersOutOfOrder i i) := by
  induction xs generalizing start with
  | nil => cases h
  | cons x xs ih =>
    simp only [List.foldlM_cons, Except.bind_eq_error_iff, hstep, Except.pure_ne_error, and_false,
      exists_false, or_false, Except.bind_eq_ok_iff, Except.pure_eq_ok_iff] at h
    rcases h with (h | ⟨_, -, h⟩) | ⟨_, ⟨_, -, _, -, rfl⟩, h⟩
    · obtain ⟨p, hp, hle, rfl⟩ := memberDelta_eq_error h
      rw [hp] at hsorted ⊢
      obtain rfl : p = index x :=
        UInt32.le_antisymm ((List.pairwise_cons.mp hsorted).1 _ List.mem_cons_self) hle
      exact .inr ⟨_, ⟨[], xs.map index, rfl⟩, rfl⟩
    · exact .inl ⟨x, List.mem_cons_self, h⟩
    · have hsuffix : index x :: xs.map index <:+ start.last.toList ++ (x :: xs).map index :=
        List.suffix_append ..
      have hrest := hsorted.sublist hsuffix.sublist
      rcases @ih ⟨_, some (index x)⟩ hrest h with ⟨y, hy, hdetails⟩ | ⟨i, hi, he⟩
      · exact .inl ⟨y, List.mem_cons_of_mem _ hy, hdetails⟩
      · exact .inr ⟨i, hi.trans hsuffix.isInfix, he⟩

namespace ClassData

variable {l : Layout} {c : ClassData} {e : Error}

/-- The indices of every list of members ascend, repetitions allowed. -/
def Ascending (c : ClassData) : Prop :=
  ∀ indices ∈ c.indexLists, indices.Pairwise (· ≤ ·)

theorem encode_eq_error (hcount : c.Countable) (hsorted : c.Ascending)
    (h : c.encode l = .error e) : e.LacksOffset ∨ Section.classData.Bars c e := by
  obtain ⟨h₁, h₂, h₃, h₄⟩ := hcount
  simp only [encode, Except.bind_eq_error_iff, Except.pure_ne_error, and_false, exists_false,
    or_false, toWord_ne_error h₁, toWord_ne_error h₂, toWord_ne_error h₃, toWord_ne_error h₄,
    false_or, ← Array.foldlM_toList] at h
  have hfields {fields : Array FieldItem} {start : Bytes}
      (hmem : fields.toList.map (·.field.slot) ∈ c.indexLists)
      (h : fields.toList.foldlM FieldItem.encode ⟨start, none⟩ = .error e) :
      e.LacksOffset ∨ Section.classData.Bars c e := by
    rcases @foldlM_member_eq_error _ _ _ _ FieldItem.encode_step _ ⟨start, none⟩ _
      (hsorted _ hmem) h with ⟨f, -, ⟨⟩⟩ | ⟨i, hi, he⟩
    exact .inr ⟨i, ⟨_, hmem, hi⟩, he⟩
  have hmethods {methods : Array MethodItem} {start : Bytes}
      (hmem : methods.toList.map (·.method.slot) ∈ c.indexLists)
      (h : methods.toList.foldlM (MethodItem.encode l) ⟨start, none⟩ = .error e) :
      e.LacksOffset ∨ Section.classData.Bars c e := by
    rcases @foldlM_member_eq_error _ _ _ _ (MethodItem.encode_step_method l) _ ⟨start, none⟩ _
      (hsorted _ hmem) h with ⟨m, -, hdetails⟩ | ⟨i, hi, he⟩
    · simp only [MethodItem.details, Except.bind_eq_error_iff, Except.pure_ne_error, and_false,
        exists_false, or_false] at hdetails
      exact .inl (Layout.lacksOffset_of_offsetOrZero hdetails)
    · exact .inr ⟨i, ⟨_, hmem, hi⟩, he⟩
  obtain ⟨_, -, _, -, _, -, _, -, h | ⟨_, -, h | ⟨_, -, h | ⟨_, -, h⟩⟩⟩⟩ := h
  · exact hfields (by simp [indexLists]) h
  · exact hfields (by simp [indexLists]) h
  · exact hmethods (by simp [indexLists]) h
  · exact hmethods (by simp [indexLists]) h

/-- No class data with a repeated index is written. -/
theorem not_repeats_of_encode {bytes : Bytes} (h : c.encode l = .ok bytes) (i : UInt32) :
    ¬ c.Repeats i := by
  obtain ⟨-, t₁, t₂, t₃, t₄, h₁, h₂, h₃, h₄, -⟩ := encode_eq_ok_iff.mp h
  have hstep {α : Type} {index : α → UInt32} {details : α → Except Error Bytes} {xs : List α}
      {last : Option UInt32} {out : List UInt8} (h : memberBytes index details last xs = .ok out) :
      ¬ [i, i] <:+: last.toList ++ xs.map index := by
    induction xs generalizing last out with
    | nil =>
      intro hinfix
      have hle := hinfix.length_le
      cases last <;> simp at hle
    | cons x xs ih =>
      simp only [memberBytes, Except.bind_eq_ok_iff] at h
      obtain ⟨delta, hdelta, _, _, tail, htail, _⟩ := h
      have hrest := ih htail
      cases last with
      | none => exact hrest
      | some p =>
        simp only [Option.toList_some, List.cons_append, List.nil_append, List.map_cons,
          List.infix_cons_iff, List.cons_prefix_cons, List.nil_prefix, and_true] at hrest ⊢
        rintro (⟨rfl, rfl⟩ | hinfix)
        · simp [memberDelta] at hdelta
        · exact hrest hinfix
  rintro ⟨indices, hmem, hinfix⟩
  simp only [indexLists, List.mem_cons, List.not_mem_nil, or_false] at hmem
  rcases hmem with rfl | rfl | rfl | rfl
  · exact hstep h₁ hinfix
  · exact hstep h₂ hinfix
  · exact hstep h₃ hinfix
  · exact hstep h₄ hinfix

end ClassData

/-! ## Bodies -/

namespace CodeItem

variable {code : CodeItem} {off : UInt32} {e : Error}

/-- The counts of a body fit their fields, and its try ranges have handlers. -/
structure Countable (code : CodeItem) : Prop where
  tries : code.tries.size < 2 ^ 16
  instructions : code.instructions.size < 2 ^ 32
  handlers : code.handlers.size < 2 ^ 32
  handled : ∀ t ∈ code.tries, t.handler < code.handlers.size

theorem foldlM_putHandler_eq_error {listStart countSize : Nat} {handlers : List CatchHandler}
    {out : Stream × Nat} (h : handlers.foldlM (putHandler listStart countSize) out = .error e) :
    ∃ x ∈ handlers, x.listOffset.toNat < countSize ∧
      e = .malformed (.handlerOverlapsCount x.listOffset) := by
  induction handlers generalizing out with
  | nil => cases h
  | cons x rest ih =>
    simp only [List.foldlM_cons, Except.bind_eq_error_iff] at h
    rcases h with h | ⟨out', -, h⟩
    · unfold putHandler at h
      split at h
      · cases h
        exact ⟨x, List.mem_cons_self, ‹_›, rfl⟩
      · cases h
    · obtain ⟨y, hy, hlt, he⟩ := ih h
      exact ⟨y, List.mem_cons_of_mem _ hy, hlt, he⟩

theorem encode_eq_error (hcount : code.Countable) (h : code.encode off = .error e) :
    Section.codeItem.Bars code e := by
  simp only [encode, encodeUnits, Except.bind_eq_error_iff, Except.pure_ne_error, and_false,
    exists_false, or_false, toHalfWord_ne_error hcount.tries, toWord_ne_error hcount.instructions,
    false_or] at h
  obtain ⟨units, -, h⟩ := h
  split at h
  · exact absurd h Except.pure_ne_error
  · rename_i hempty
    simp only [Except.bind_eq_error_iff, Except.pure_ne_error, and_false, exists_false, or_false,
      toWord_ne_error hcount.handlers, false_or, encodeTries_eq] at h
    rcases h with h | ⟨bytes, -, count, hcountBytes, h⟩
    · obtain ⟨t, ht, htry⟩ := Bytes.foldlM_append_eq_error h
      have hlt := hcount.handled t (Array.mem_toList_iff.mp ht)
      rw [tryBytes, handlerOf?, Array.getElem?_eq_getElem hlt] at htry
      cases htry
    · rw [← Array.foldlM_toList] at h
      obtain ⟨x, hx, hlt, rfl⟩ := foldlM_putHandler_eq_error h
      obtain ⟨-, rfl⟩ := toWord_eq_ok_iff_lt.mp hcountBytes
      exact ⟨_, ⟨fun htries => hempty (by simp [htries]), ⟨x, Array.mem_toList_iff.mp hx, rfl⟩,
        hlt⟩, rfl⟩

/-- No body with a handler inside the number of handlers is written. -/
theorem not_overlaps_of_encode {item : Stream} (h : code.encode off = .ok item) (o : UInt16) :
    ¬ code.Overlaps o := by
  rintro ⟨hne, ⟨x, hx, rfl⟩, hlt⟩
  obtain ⟨-, -, ⟨hempty, -⟩ | ⟨-, -, hle, -⟩⟩ := encode_eq_ok_iff.mp h
  · exact hne hempty
  · exact Nat.not_lt.mpr (hle x hx) hlt

end CodeItem

/-- Handlers at distinct offsets are no more than there are offsets. -/
theorem CatchHandler.Distinct.length_le {handlers : List CatchHandler} (h : Distinct handlers) :
    handlers.length ≤ 2 ^ 16 := by
  have hnodup : (handlers.map (·.listOffset.toBitVec.toFin)).Nodup := by
    refine List.pairwise_map.mpr (h.imp fun hne heq => hne ?_)
    exact UInt16.toNat_inj.mp (congrArg Fin.val heq)
  simpa using hnodup.length_le_card

/-! ## Lists and directories -/

theorem exists_of_encodeList_eq_error {α : Type} {f : α → Except Error Bytes} {elements : Array α}
    {e : Error} (hsize : elements.size < 2 ^ 32) (h : encodeList elements f = .error e) :
    ∃ x ∈ elements, f x = .error e := by
  simp only [encodeList, Except.bind_eq_error_iff, toWord_ne_error hsize, false_or,
    ← Array.foldlM_toList] at h
  obtain ⟨_, -, h⟩ := h
  obtain ⟨x, hx, hfx⟩ := Bytes.foldlM_append_eq_error h
  exact ⟨x, Array.mem_toList_iff.mp hx, hfx⟩

theorem AnnotationsDirectory.lacksOffset_of_encode {l : Layout} {x : AnnotationsDirectory}
    {e : Error} (hfields : x.fields.size < 2 ^ 32) (hmethods : x.methods.size < 2 ^ 32)
    (hparameters : x.parameters.size < 2 ^ 32) (h : x.encode l = .error e) : e.LacksOffset := by
  have hentries {member notes : Section} {entries : Array (MemberAnnotations member notes)}
      {start : Bytes} (h : MemberAnnotations.encodeEach l start entries = .error e) :
      e.LacksOffset := by
    rw [MemberAnnotations.encodeEach, ← Array.foldlM_toList] at h
    obtain ⟨y, -, hy⟩ := Bytes.foldlM_append_eq_error h
    simp only [MemberAnnotations.encode, Except.bind_eq_error_iff, Except.pure_ne_error, and_false,
      exists_false, or_false] at hy
    exact Layout.lacksOffset_of_offsetOrZero hy
  simp only [encode, Except.bind_eq_error_iff, toWord_ne_error hfields, toWord_ne_error hmethods,
    toWord_ne_error hparameters, false_or] at h
  rcases h with h | ⟨_, -, _, -, _, -, _, -, h | ⟨_, -, h | ⟨_, -, h⟩⟩⟩
  · exact Layout.lacksOffset_of_offsetOrZero h
  · exact hentries h
  · exact hentries h
  · exact hentries h

/-! ## What is read -/

namespace Survey

variable {α : Type} {v : View} {m : Survey α}

theorem gatherFrom_ensures_size (n : Nat) {done : Array α} :
    (gatherFrom done n m).Ensures v fun xs => xs.size = done.size + n := by
  induction n generalizing done with
  | zero => exact ensures_pure rfl
  | succ n ih =>
    refine ensures_bind fun a => ih.mono fun xs hxs => ?_
    rw [hxs, Array.size_push]
    omega

theorem ensures_size_gather {n : Nat} : (gather n m).Ensures v fun xs => xs.size = n :=
  (gatherFrom_ensures_size n).mono fun xs hxs => by simpa using hxs

end Survey

theorem le_of_nextIndex {previous delta index : UInt32} (h : nextIndex previous delta = .ok index) :
    previous ≤ index := by
  unfold nextIndex at h
  split at h
  · cases h
    rw [UInt32.le_iff_toNat_le, UInt32.toNat_add]
    omega
  · cases h

/-- An index that is not below the last one may follow indices in ascending order. -/
theorem pairwise_concat_of_le {indices : List UInt32} {previous index : UInt32}
    (hsorted : indices.Pairwise (· ≤ ·)) (hle : ∀ i ∈ indices, i ≤ previous)
    (hindex : previous ≤ index) :
    (indices ++ [index]).Pairwise (· ≤ ·) ∧ ∀ i ∈ indices ++ [index], i ≤ index := by
  have hle (i : UInt32) (hi : i ∈ indices) : i ≤ index := UInt32.le_trans (hle i hi) hindex
  refine ⟨List.pairwise_append.mpr ⟨hsorted, List.pairwise_singleton .., ?_⟩, fun i hi => ?_⟩
  · rintro i hi j hj
    exact List.mem_singleton.mp hj ▸ hle i hi
  · rcases List.mem_append.mp hi with hi | hi
    · exact hle i hi
    · exact (List.mem_singleton.mp hi).symm ▸ UInt32.le_refl index

/-- The fields that are read stand in ascending order, and they are as many as were to be read. -/
theorem FieldItem.decodeFrom_ensures_ascending {g : Graph} (count : Nat) {previous : UInt32}
    {fields : Array FieldItem} (hsorted : (fields.toList.map (·.field.slot)).Pairwise (· ≤ ·))
    (hle : ∀ i ∈ fields.toList.map (·.field.slot), i ≤ previous) :
    (decodeFrom g previous fields count).Ensures fun fs =>
      fs.size = fields.size + count ∧ (fs.toList.map (·.field.slot)).Pairwise (· ≤ ·) := by
  induction count generalizing previous fields with
  | zero => exact Decoder.ensures_pure ⟨rfl, hsorted⟩
  | succ count ih =>
    refine Decoder.ensures_bind fun delta => ?_
    refine Decoder.Ensures.bind (R := (previous ≤ ·)) (fun _ _ _ _ h => ?_) fun index hindex => ?_
    · exact le_of_nextIndex (Decoder.reads_ofExcept_iff.mp h).1
    refine Decoder.ensures_bind fun flags => ?_
    refine Decoder.Ensures.bind (R := fun field : Ref .fieldId => field.slot = index)
      (fun _ _ _ _ h => ?_) fun field hfield => ?_
    · rw [(Graph.resolve_eq_ok_iff.mp (Decoder.reads_ofExcept_iff.mp h).1).1]
    obtain ⟨hsorted, hle⟩ := pairwise_concat_of_le hsorted hle (hfield.symm ▸ hindex)
    refine (ih (by simpa using hsorted) ?_).mono fun fs hfs => ⟨?_, hfs.2⟩
    · rw [← hfield]
      simpa using hle
    · rw [hfs.1, Array.size_push]
      omega

/-- The methods that are read stand in ascending order, and they are as many as were to be read. -/
theorem MethodItem.surveyFrom_ensures_ascending {v : View} (count : Nat) {previous : UInt32}
    {methods : Array MethodItem} (hsorted : (methods.toList.map (·.method.slot)).Pairwise (· ≤ ·))
    (hle : ∀ i ∈ methods.toList.map (·.method.slot), i ≤ previous) :
    (surveyFrom previous methods count).Ensures v fun ms =>
      ms.size = methods.size + count ∧ (ms.toList.map (·.method.slot)).Pairwise (· ≤ ·) := by
  induction count generalizing previous methods with
  | zero => exact Survey.ensures_pure ⟨rfl, hsorted⟩
  | succ count ih =>
    refine Survey.ensures_bind fun delta => ?_
    refine Survey.Ensures.bind (R := (previous ≤ ·)) ?_ fun index hindex => ?_
    · exact Survey.ensures_decodeWith (d := fun _ => Decoder.ofExcept (nextIndex previous delta))
        fun _ _ _ _ h => le_of_nextIndex (Decoder.reads_ofExcept_iff.mp h).1
    refine Survey.ensures_bind fun flags => Survey.ensures_bind fun codeOffset => ?_
    refine Survey.Ensures.bind (R := fun method : Ref .methodId => method.slot = index) ?_
      fun method hmethod => Survey.ensures_bind fun code => ?_
    · refine Survey.ensures_decodeWith fun _ _ _ _ h => ?_
      rw [(Graph.resolve_eq_ok_iff.mp (Decoder.reads_ofExcept_iff.mp h).1).1]
    obtain ⟨hsorted, hle⟩ := pairwise_concat_of_le hsorted hle (hmethod.symm ▸ hindex)
    refine (ih (by simpa using hsorted) ?_).mono fun ms hms => ⟨?_, hms.2⟩
    · rw [← hmethod]
      simpa using hle
    · rw [hms.1, Array.size_push]
      omega

theorem ClassData.survey_ensures_ascending {v : View} :
    ClassData.survey.Ensures v fun c => c.Countable ∧ c.Ascending := by
  refine Survey.ensures_bind fun n₁ => Survey.ensures_bind fun n₂ => Survey.ensures_bind fun n₃ =>
    Survey.ensures_bind fun n₄ =>
    (Survey.ensures_decodeWith (FieldItem.decodeFrom_ensures_ascending _ .nil (by simp))).bind
      fun static hstatic =>
    (Survey.ensures_decodeWith (FieldItem.decodeFrom_ensures_ascending _ .nil (by simp))).bind
      fun inst hinst =>
    (MethodItem.surveyFrom_ensures_ascending _ .nil (by simp)).bind fun direct hdirect =>
    (MethodItem.surveyFrom_ensures_ascending _ .nil (by simp)).bind fun virtual hvirtual =>
      Survey.ensures_pure ⟨?_, ?_⟩
  · have hlt {size : Nat} {n : UInt32} (h : size = (#[] : Array Unit).size + n.toNat) :
        size < 2 ^ 32 := by
      rw [h, Array.size_empty, Nat.zero_add]
      exact n.toNat_lt
    exact ⟨hlt hstatic.1, hlt hinst.1, hlt hdirect.1, hlt hvirtual.1⟩
  · intro indices hmem
    simp only [indexLists, List.mem_cons, List.not_mem_nil, or_false] at hmem
    rcases hmem with rfl | rfl | rfl | rfl
    · exact hstatic.2
    · exact hinst.2
    · exact hdirect.2
    · exact hvirtual.2

theorem CodeItem.decodeAfter_ensures_countable {g : Graph} {h : CodeHeader}
    {debugInfo : Option (Ref .debugInfo)} : (decodeAfter g h debugInfo).Ensures Countable := by
  refine Decoder.ensures_size_gather.bind fun units hunits => ?_
  have hunits : units.size < 2 ^ 32 := hunits ▸ h.unitCount.toNat_lt
  have hcatches : (do
      let catches ← Catches.decode g h.tryCount.toNat
      return (⟨h.registers, h.ins, h.outs, debugInfo, units, catches.tries, catches.handlers⟩ :
        CodeItem) : Decoder CodeItem).Ensures Countable := by
    intro data p code q hread
    obtain ⟨c, r, hc, hpure⟩ := Decoder.reads_bind_iff.mp hread
    obtain ⟨rfl, -⟩ := Decoder.reads_pure_iff.mp hpure
    obtain ⟨_, hfrom, hsize⟩ := Catches.readFrom_of_decode hc
    have hhandlers := hfrom.distinct.length_le
    rw [Array.length_toList] at hhandlers
    refine ⟨hsize ▸ h.tryCount.toNat_lt, hunits, by simp only; omega, ?_⟩
    exact (Catches.decode_ensures data p c r hc).tries
  exact .ite (Decoder.ensures_pure ⟨by simp [Catches.empty], hunits, by simp [Catches.empty],
    by simp [Catches.empty]⟩) (.ite (Decoder.ensures_bind fun _ => hcatches) hcatches)

namespace Section

variable {v : View}

/-- An index that is read from a half word fits one. -/
theorem decode_ensures_halfWord {g : Graph} {s : Section} {index : UInt16} :
    (Decoder.ofExcept (g.resolve s index.toUInt32)).Ensures fun r => r.pos < 2 ^ 16 := by
  intro data p r q h
  rw [(Graph.resolve_eq_ok_iff.mp (Decoder.reads_ofExcept_iff.mp h).1).1, Ref.pos,
    UInt16.toNat_toUInt32]
  exact index.toNat_lt

theorem ensures_resolve_halfWord {s : Section} {index : UInt16} :
    (Survey.resolve s index.toUInt32).Ensures v fun r => r.pos < 2 ^ 16 :=
  Survey.ensures_decodeWith decode_ensures_halfWord

theorem storable_typeList {x : TypeList}
    (h : x.types.size < 2 ^ 32 ∧ ∀ r ∈ x.types, r.pos < 2 ^ 16) : Storable .typeList x := by
  intro l e he
  simp only [encode, TypeList.encode, Except.bind_eq_error_iff, Except.pure_ne_error, and_false,
    exists_false, or_false] at he
  obtain ⟨r, hr, he⟩ := exists_of_encodeList_eq_error h.1 he
  simp only [Except.bind_eq_error_iff, Except.pure_ne_error, and_false, exists_false,
    or_false] at he
  exact absurd he (toHalfWord_ne_error (h.2 r hr))

theorem storable_annotationSet {x : AnnotationSet} (h : x.items.size < 2 ^ 32) :
    Storable .annotationSet x := by
  intro l e he
  simp only [encode, AnnotationSet.encode, Except.bind_eq_error_iff, Except.pure_ne_error,
    and_false, exists_false, or_false] at he
  obtain ⟨r, -, he⟩ := exists_of_encodeList_eq_error h he
  simp only [Except.bind_eq_error_iff, Except.pure_ne_error, and_false, exists_false,
    or_false] at he
  exact .inl (Layout.lacksOffset_of_offsetOf he)

theorem storable_annotationSetRefList {x : AnnotationSetRefList} (h : x.items.size < 2 ^ 32) :
    Storable .annotationSetRefList x := by
  intro l e he
  simp only [encode, AnnotationSetRefList.encode, Except.bind_eq_error_iff, Except.pure_ne_error,
    and_false, exists_false, or_false] at he
  obtain ⟨r, -, he⟩ := exists_of_encodeList_eq_error h he
  simp only [Except.bind_eq_error_iff, Except.pure_ne_error, and_false, exists_false,
    or_false] at he
  exact .inl (Layout.lacksOffset_of_offsetOrZero he)

/-- Whatever is read can be written again, but for offsets and defects. -/
theorem survey_ensures_storable (s : Section) : s.survey.Ensures v s.Storable := by
  cases s with
  | stringData | debugInfo => exact fun _ _ _ _ _ => nofun
  | typeId => exact fun _ _ _ _ _ => nofun
  | stringId | callSiteId =>
    refine fun _ _ _ _ _ l e he => .inl ?_
    simp only [encode, StringId.toRow, CallSiteId.toRow, Except.bind_eq_error_iff,
      Except.pure_ne_error, and_false, exists_false, or_false] at he
    exact Layout.lacksOffset_of_offsetOf he
  | protoId =>
    refine fun _ _ _ _ _ l e he => .inl ?_
    simp only [encode, ProtoId.toRow, Except.bind_eq_error_iff, Except.pure_ne_error, and_false,
      exists_false, or_false] at he
    exact Layout.lacksOffset_of_offsetOrZero he
  | classDef =>
    refine fun _ _ _ _ _ l e he => .inl ?_
    simp only [encode, ClassDef.toRow, Except.bind_eq_error_iff, Except.pure_ne_error, and_false,
      exists_false, or_false] at he
    rcases he with he | ⟨_, -, he | ⟨_, -, he | ⟨_, -, he⟩⟩⟩
    all_goals exact Layout.lacksOffset_of_offsetOrZero he
  | fieldId | methodId =>
    refine Survey.ensures_bind fun row => ensures_resolve_halfWord.bind fun _ h₁ =>
      ensures_resolve_halfWord.bind fun _ h₂ => Survey.ensures_bind fun _ =>
        Survey.ensures_pure fun l e he => ?_
    simp only [encode, FieldId.toRow, MethodId.toRow, Except.bind_eq_error_iff,
      Except.pure_ne_error, and_false, exists_false, or_false, toHalfWord_ne_error h₁,
      toHalfWord_ne_error h₂] at he
  | methodHandle =>
    refine Survey.ensures_bind fun row => ?_
    unfold MethodHandleRow.survey
    cases MethodHandleKind.ofCode? row.kind with
    | none => exact Survey.ensures_fail
    | some kind =>
      have htarget : (HandleTarget.survey kind row.target).Ensures v fun target =>
          target.index.toNat < 2 ^ 16 :=
        .ite (ensures_resolve_halfWord.bind fun _ h => Survey.ensures_pure h)
          (ensures_resolve_halfWord.bind fun _ h => Survey.ensures_pure h)
      refine htarget.bind fun target h => Survey.ensures_pure fun l e he => ?_
      simp only [encode, MethodHandle.toRow, Except.bind_eq_error_iff, Except.pure_ne_error,
        and_false, exists_false, or_false, toHalfWord_ne_error h] at he
  | typeList =>
    refine (Survey.ensures_decodeWith (P := fun x : TypeList =>
      x.types.size < 2 ^ 32 ∧ ∀ r ∈ x.types, r.pos < 2 ^ 16) ?_).mono fun _ => storable_typeList
    have hentry : (do
        let index ← Decoder.halfWord
        Decoder.ofExcept (v.graph.resolve .typeId index.toUInt32) :
        Decoder (Ref .typeId)).Ensures fun r => r.pos < 2 ^ 16 :=
      Decoder.ensures_bind fun _ => decode_ensures_halfWord
    exact Decoder.ensures_bind fun count => (hentry.gather.and Decoder.ensures_size_gather).bind
      fun _ h => Decoder.ensures_pure ⟨h.2 ▸ count.toNat_lt, h.1⟩
  | encodedArray =>
    refine (Survey.ensures_decodeWith Value.decodeArray_covers.ensures).bind
      fun values h => Survey.ensures_pure fun l e he => ?_
    obtain ⟨part, hpart⟩ := h
    simp only [encode, hpart] at he
    cases he
  | annotationItem =>
    refine Survey.ensures_bind fun code => ?_
    cases Visibility.ofCode? code with
    | none => exact Survey.ensures_fail
    | some visibility =>
      refine (Survey.ensures_decodeWith Annotation.decode_covers.ensures).bind
        fun a h => Survey.ensures_pure fun l e he => ?_
      obtain ⟨part, hpart⟩ := h
      simp only [encode, hpart] at he
      cases he
  | annotationSet =>
    refine Survey.ensures_bind fun count => Survey.ensures_size_gather.bind fun items h =>
      Survey.ensures_pure (storable_annotationSet ?_)
    exact Nat.lt_of_le_of_lt (Array.size_filterMap_le ..) (h ▸ count.toNat_lt)
  | annotationSetRefList =>
    exact Survey.ensures_bind fun count => Survey.ensures_size_gather.bind fun items h =>
      Survey.ensures_pure (storable_annotationSetRefList (h ▸ count.toNat_lt))
  | annotationsDirectory =>
    refine Survey.ensures_bind fun _ => Survey.ensures_bind fun n₁ => Survey.ensures_bind fun n₂ =>
      Survey.ensures_bind fun n₃ => Survey.ensures_bind fun _ =>
      Survey.ensures_size_gather.bind fun _ h₁ => Survey.ensures_size_gather.bind fun _ h₂ =>
      Survey.ensures_size_gather.bind fun _ h₃ => Survey.ensures_pure fun l e he => .inl ?_
    simp only [encode, Except.bind_eq_error_iff, Except.pure_ne_error, and_false, exists_false,
      or_false] at he
    exact AnnotationsDirectory.lacksOffset_of_encode (h₁ ▸ n₁.toNat_lt) (h₂ ▸ n₂.toNat_lt)
      (h₃ ▸ n₃.toNat_lt) he
  | codeItem =>
    refine Survey.ensures_bind fun _ => Survey.ensures_bind fun _ =>
      (Survey.ensures_decodeWith CodeItem.decodeAfter_ensures_countable).mono fun x h l e he => ?_
    simp only [encode, Except.bind_eq_error_iff] at he
    rcases he with he | ⟨_, -, he⟩
    · exact .inl (Layout.lacksOffset_of_offsetOrZero he)
    · exact .inr (CodeItem.encode_eq_error h he)
  | classData =>
    refine ClassData.survey_ensures_ascending.mono fun c h l e he => ?_
    simp only [encode, Except.bind_eq_error_iff, Except.pure_ne_error, and_false, exists_false,
      or_false] at he
    exact ClassData.encode_eq_error h.1 h.2 he

end Section

end DexGraph
