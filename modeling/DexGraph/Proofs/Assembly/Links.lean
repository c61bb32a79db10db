import DexGraph.Proofs.Assembly.Ensures

/-!
# Links

A link is a field of an entity that an image stores as an offset: it holds the item at the offset,
or none. `Section.survey_tells_links` says that the links of what is read are what the view has for
the pointers that have been met, one for one and in this order. The one section that keeps fewer
links than offsets are stored for it is the annotation set: `AnnotationSet.reads_offsets` says that
it leaves the offset zero out, wherever it is stored, and nothing else.
-/

namespace DexGraph

/-- A field that holds an item of a section, or none. -/
abbrev Link : Type :=
  Σ s : Section, Option (Ref s)

/-- What the view has for a pointer. -/
def View.link (v : View) (t : Pointer) : Link :=
  ⟨t.target, v.find? t.target t.offset⟩

/-- The links of an entity, in the order in which they are read. -/
def Section.links : (s : Section) → s.Content → List Link
  | .stringId, x => [⟨_, some x.data⟩]
  | .protoId, x => [⟨_, x.parameters⟩]
  | .classDef, x => [⟨_, x.interfaces⟩, ⟨_, x.annotations⟩, ⟨_, x.staticValues⟩, ⟨_, x.classData⟩]
  | .callSiteId, x => [⟨_, some x.array⟩]
  | .annotationSet, x => x.items.toList.map fun r => ⟨_, some r⟩
  | .annotationSetRefList, x => x.items.toList.map fun r => ⟨_, r⟩
  | .annotationsDirectory, x =>
    [⟨_, x.classAnnotations⟩] ++ x.fields.toList.map (fun e => ⟨_, e.annotations⟩) ++
      x.methods.toList.map (fun e => ⟨_, e.annotations⟩) ++
      x.parameters.toList.map fun e => ⟨_, e.annotations⟩
  | .codeItem, x => [⟨_, x.debugInfo⟩]
  | .classData, x => x.allMethods.toList.map fun m => ⟨_, m.code⟩
  | _, _ => []

namespace Survey

variable {α β : Type} {v : View} {done : List Link} {links : α → List Link}

/-- The links of whatever the survey reads in the view are those that were read before, and then
what the view has for the pointers that the survey has met. -/
def Tells (m : Survey α) (v : View) (done : List Link) (links : α → List Link) : Prop :=
  ∀ data p x met q, m.Reads v data p x met q → links x = done ++ met.map v.link

theorem tells_pure {x : α} (h : links x = done) : (pure x : Survey α).Tells v done links := by
  intro data p y met q hy
  obtain ⟨rfl, rfl, -⟩ := reads_pure_iff.mp hy
  rw [h, List.map_nil, List.append_nil]

theorem Tells.bind {m : Survey β} {f : β → Survey α} {first : β → List Link}
    (hm : m.Tells v [] first) (hf : ∀ y, (f y).Tells v (done ++ first y) links) :
    (m >>= f).Tells v done links := by
  intro data p x met q h
  obtain ⟨y, met₁, r, met₂, hy, hx, rfl⟩ := reads_bind_iff.mp h
  rw [hf y _ _ _ _ _ hx, hm _ _ _ _ _ hy, List.nil_append, List.map_append, List.append_assoc]

theorem tells_decodeWith {d : Graph → Decoder α} (h : ∀ x, links x = done) :
    (decodeWith d).Tells v done links := by
  intro data p x met q hx
  obtain ⟨-, rfl⟩ := reads_decodeWith_iff.mp hx
  rw [h, List.map_nil, List.append_nil]

/-- A decoder meets no pointers. -/
theorem tells_decodeWith_bind {d : Graph → Decoder β} {f : β → Survey α}
    (hf : ∀ y, (f y).Tells v done links) : (decodeWith d >>= f).Tells v done links := by
  have hd : (decodeWith d).Tells v [] fun _ => [] := tells_decodeWith fun _ => rfl
  refine hd.bind fun y => ?_
  rw [List.append_nil]
  exact hf y

theorem tells_decode_bind {d : Decoder β} {f : β → Survey α}
    (hf : ∀ y, (f y).Tells v done links) : (decode d >>= f).Tells v done links :=
  tells_decodeWith_bind (d := fun _ => d) hf

theorem tells_resolve_bind {s : Section} {index : UInt32} {f : Ref s → Survey α}
    (hf : ∀ r, (f r).Tells v done links) : (resolve s index >>= f).Tells v done links :=
  tells_decodeWith_bind hf

theorem tells_resolveOrNone_bind {s : Section} {index : UInt32} {f : Option (Ref s) → Survey α}
    (hf : ∀ r, (f r).Tells v done links) : (resolveOrNone s index >>= f).Tells v done links :=
  tells_decodeWith_bind hf

theorem tells_fail {e : Error} : (decode (Decoder.fail e) : Survey α).Tells v done links :=
  fun _ _ _ _ _ h => absurd (reads_decode_iff.mp h).1 Decoder.not_reads_fail

/-- What is read one after the other has met what each of it has met. -/
theorem Tells.gather {m : Survey α} (hm : m.Tells v [] links) {n : Nat} :
    (DexGraph.gather n m).Tells v [] fun xs => xs.toList.flatMap links := by
  have hfrom (n : Nat) (before : Array α) : (gatherFrom before n m).Tells v
      (before.toList.flatMap links) fun xs => xs.toList.flatMap links := by
    induction n generalizing before with
    | zero => exact tells_pure rfl
    | succ n ih =>
      refine hm.bind fun x => ?_
      have hpush := ih (before.push x)
      rwa [Array.toList_push, List.flatMap_append, List.flatMap_singleton] at hpush
  exact hfrom n #[]

/-- Each of what is read one after the other has one link. -/
theorem Tells.gather_single {m : Survey α} {link : α → Link} (hm : m.Tells v [] fun x => [link x])
    {n : Nat} : (DexGraph.gather n m).Tells v [] fun xs => xs.toList.map link := by
  simp only [List.map_eq_flatMap]
  exact hm.gather

theorem tells_item {s : Section} {offset : UInt32} :
    (item s offset).Tells v [] fun r => [⟨s, some r⟩] := by
  intro data p r met q h
  obtain ⟨hr, rfl, -⟩ := reads_item_iff.mp h
  rw [List.nil_append, List.map_singleton, View.link, hr]

/-- If nothing lies at the offset zero. -/
theorem tells_item? {s : Section} {offset : UInt32} (hzero : v.find? s 0 = none) :
    (item? s offset).Tells v [] fun r => [⟨s, r⟩] := by
  intro data p r met q h
  obtain ⟨rfl, -, rfl, -⟩ := reads_item?_iff.mp h
  rw [List.nil_append, List.map_singleton, View.link]
  split
  · rename_i h0
    rw [h0, hzero]
  · rfl

end Survey

/-! ## The links of what is read -/

open Survey

/-- An entry of an annotation set. -/
def AnnotationSet.surveyEntry : Survey (Option (Ref .annotationItem)) := do
  let itemOffset ← decode Decoder.word
  if itemOffset == 0 then return none else return some (← item .annotationItem itemOffset)

section Links

variable {v : View}

theorem MethodItem.surveyFrom_tells_links (hzero : v.find? .codeItem 0 = none) (count : Nat)
    (previous : UInt32) (methods : Array MethodItem) :
    (surveyFrom previous methods count).Tells v
      (methods.toList.map fun m => (⟨_, m.code⟩ : Link)) fun ms =>
        ms.toList.map fun m => ⟨_, m.code⟩ := by
  induction count generalizing previous methods with
  | zero => exact tells_pure rfl
  | succ count ih =>
    refine tells_decode_bind fun delta => tells_decode_bind fun index =>
      tells_decode_bind fun flags => tells_decode_bind fun codeOffset =>
      tells_resolve_bind fun method => (tells_item? hzero).bind fun code => ?_
    have hpush := ih index (methods.push ⟨⟨flags⟩, method, code, none⟩)
    rwa [Array.toList_push, List.map_append, List.map_singleton] at hpush

theorem MemberAnnotations.survey_tells_links {member notes : Section}
    (hzero : v.find? notes 0 = none) :
    (survey member notes).Tells v [] fun e => [⟨notes, e.annotations⟩] :=
  tells_decode_bind fun _ => tells_decode_bind fun _ => tells_resolve_bind fun _ =>
    (tells_item? hzero).bind fun _ => tells_pure rfl

/-- The links of what is read are what the view has for the pointers that are met. -/
theorem Section.survey_tells_links (hzero : ∀ t, t ≠ .stringData → v.find? t 0 = none)
    (s : Section) : s.survey.Tells v [] s.links := by
  cases s with
  | stringId => exact tells_decode_bind fun _ => tells_item.bind fun _ => tells_pure rfl
  | protoId =>
    exact tells_decode_bind fun _ => tells_resolve_bind fun _ => tells_resolve_bind fun _ =>
      (tells_item? (hzero _ (by decide))).bind fun _ => tells_pure rfl
  | classDef =>
    exact tells_decode_bind fun _ => tells_resolve_bind fun _ => tells_resolveOrNone_bind fun _ =>
      (tells_item? (hzero _ (by decide))).bind fun _ => tells_resolveOrNone_bind fun _ =>
      (tells_item? (hzero _ (by decide))).bind fun _ =>
      (tells_item? (hzero _ (by decide))).bind fun _ =>
      (tells_item? (hzero _ (by decide))).bind fun _ => tells_pure rfl
  | callSiteId =>
    refine tells_decode_bind fun row => (tells_item? (hzero _ (by decide))).bind fun r => ?_
    cases r with
    | none => exact tells_fail
    | some array => exact tells_pure rfl
  | methodHandle =>
    refine tells_decode_bind fun row => ?_
    unfold MethodHandleRow.survey
    cases MethodHandleKind.ofCode? row.kind with
    | none => exact tells_fail
    | some kind =>
      have htarget : (HandleTarget.survey kind row.target).Tells v [] fun _ => [] := by
        unfold HandleTarget.survey
        split
        · exact tells_resolve_bind fun _ => tells_pure rfl
        · exact tells_resolve_bind fun _ => tells_pure rfl
      exact htarget.bind fun _ => tells_pure rfl
  | annotationItem =>
    refine tells_decode_bind fun code => ?_
    cases Visibility.ofCode? code with
    | none => exact tells_fail
    | some visibility => exact tells_decodeWith_bind fun _ => tells_pure rfl
  | annotationSet =>
    have hentry : AnnotationSet.surveyEntry.Tells v [] fun r =>
        r.toList.map fun r => (⟨_, some r⟩ : Link) := by
      refine tells_decode_bind fun itemOffset => ?_
      split
      · exact tells_pure rfl
      · exact tells_item.bind fun _ => tells_pure rfl
    refine tells_decode_bind fun _ => hentry.gather.bind fun items => tells_pure ?_
    change (items.filterMap id).toList.map _ = _
    rw [Array.toList_filterMap, List.map_filterMap, List.filterMap_eq_flatMap_toList]
    refine List.flatMap_congr fun r _ => ?_
    cases r <;> rfl
  | annotationSetRefList =>
    have hentry : (do
        let setOffset ← decode Decoder.word
        item? .annotationSet setOffset : Survey (Option (Ref .annotationSet))).Tells v [] fun r =>
          [⟨_, r⟩] :=
      tells_decode_bind fun _ => tells_item? (hzero _ (by decide))
    exact tells_decode_bind fun _ => hentry.gather_single.bind fun _ => tells_pure rfl
  | annotationsDirectory =>
    have hset := hzero .annotationSet (by decide)
    have hlist := hzero .annotationSetRefList (by decide)
    exact tells_decode_bind fun _ => tells_decode_bind fun _ => tells_decode_bind fun _ =>
      tells_decode_bind fun _ => (tells_item? hset).bind fun _ =>
      (MemberAnnotations.survey_tells_links hset).gather_single.bind fun _ =>
      (MemberAnnotations.survey_tells_links hset).gather_single.bind fun _ =>
      (MemberAnnotations.survey_tells_links hlist).gather_single.bind fun _ => tells_pure rfl
  | codeItem =>
    refine tells_decode_bind fun header => (tells_item? (hzero _ (by decide))).bind fun r => ?_
    intro data p x met q h
    obtain ⟨hx, rfl⟩ := reads_decodeWith_iff.mp h
    change [(⟨_, x.debugInfo⟩ : Link)] = _
    rw [(CodeItem.decodeAfter_ensures _ _ _ _ hx).1]
    rfl
  | classData =>
    have hcode := hzero .codeItem (by decide)
    refine tells_decode_bind fun _ => tells_decode_bind fun _ =>
      tells_decode_bind fun _ => tells_decode_bind fun _ =>
      tells_decodeWith_bind fun _ => tells_decodeWith_bind fun _ =>
      (MethodItem.surveyFrom_tells_links hcode _ _ #[]).bind fun direct =>
      (MethodItem.surveyFrom_tells_links hcode _ _ #[]).bind fun virtual => tells_pure ?_
    change (direct ++ virtual).toList.map _ = _
    rw [Array.toList_append, List.map_append, List.nil_append]
  | stringData => exact tells_decodeWith (d := fun _ => StringData.decode) fun _ => rfl
  | debugInfo => exact tells_decodeWith (d := fun _ => DebugInfo.decode) fun _ => rfl
  | typeList => exact tells_decodeWith fun _ => rfl
  | typeId => exact tells_decode_bind fun _ => tells_resolve_bind fun _ => tells_pure rfl
  | fieldId | methodId =>
    exact tells_decode_bind fun _ => tells_resolve_bind fun _ => tells_resolve_bind fun _ =>
      tells_resolve_bind fun _ => tells_pure rfl
  | encodedArray => exact tells_decodeWith_bind fun _ => tells_pure rfl

end Links

/-! ## The offsets of annotation sets -/

namespace AnnotationSet

variable {v : View} {data : Bytes} {p q : Nat} {met : List Pointer}

/-- The pointers that a set has met in which the given offsets are stored. -/
def pointers (stored : List UInt32) : List Pointer :=
  (stored.filter (· ≠ 0)).map (⟨.annotationItem, ·⟩)

theorem reads_surveyEntry {r : Option (Ref .annotationItem)}
    (h : surveyEntry.Reads v data p r met q) :
    ∃ offset, Decoder.word.Reads data p offset q ∧ met = pointers [offset] := by
  obtain ⟨offset, first, p', rest, hoffset, hrest, rfl⟩ := reads_bind_iff.mp h
  obtain ⟨hword, rfl⟩ := reads_decode_iff.mp hoffset
  by_cases h0 : offset = 0
  · rw [if_pos (by simp [h0])] at hrest
    obtain ⟨-, rfl, rfl⟩ := reads_pure_iff.mp hrest
    exact ⟨offset, hword, by simp [pointers, h0]⟩
  · rw [if_neg (by simpa using h0)] at hrest
    obtain ⟨r', met', p'', rest', hitem, hpure, rfl⟩ := reads_bind_iff.mp hrest
    obtain ⟨-, rfl, rfl⟩ := reads_item_iff.mp hitem
    obtain ⟨-, rfl, rfl⟩ := reads_pure_iff.mp hpure
    exact ⟨offset, hword, by simp [pointers, h0]⟩

/-- A set has met a pointer for every offset that is stored in it, in the order in which they are
stored, apart from the offsets that are zero. -/
theorem reads_offsets {x : AnnotationSet} (h : survey.Reads v data p x met q) :
    ∃ stored : Array UInt32, (do gather (← Decoder.word).toNat Decoder.word).Reads data p stored q ∧
      met = pointers stored.toList := by
  have hfrom (n : Nat) (done items : Array (Option (Ref .annotationItem))) (start : Nat)
      (met : List Pointer) (h : (gatherFrom done n surveyEntry).Reads v data start items met q) :
      ∃ stored : List UInt32, stored.length = n ∧
        Decoder.ReadsEach Decoder.word data start stored q ∧ met = pointers stored := by
    induction n generalizing done start met with
    | zero =>
      obtain ⟨-, rfl, rfl⟩ := reads_pure_iff.mp h
      exact ⟨[], rfl, rfl, rfl⟩
    | succ n ih =>
      obtain ⟨r, first, p', rest, hentry, hrest, rfl⟩ := reads_bind_iff.mp h
      obtain ⟨offset, hoffset, rfl⟩ := reads_surveyEntry hentry
      obtain ⟨stored, hlength, hstored, rfl⟩ := ih _ _ _ hrest
      refine ⟨offset :: stored, congrArg Nat.succ hlength, ⟨p', hoffset, hstored⟩, ?_⟩
      rw [pointers, pointers, pointers, ← List.map_append, ← List.filter_append,
        List.singleton_append]
  obtain ⟨count, first, start, rest, hcount, hrest, rfl⟩ := reads_bind_iff.mp h
  obtain ⟨hword, rfl⟩ := reads_decode_iff.mp hcount
  obtain ⟨items, met, q', last, hitems, hpure, rfl⟩ := reads_bind_iff.mp hrest
  obtain ⟨-, rfl, rfl⟩ := reads_pure_iff.mp hpure
  obtain ⟨stored, hlength, hstored, rfl⟩ := hfrom _ _ _ _ _ hitems
  exact ⟨stored.toArray, hword.bind (Decoder.reads_gather_iff.mpr ⟨hlength, hstored⟩), by simp⟩

end AnnotationSet

end DexGraph
