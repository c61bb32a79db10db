import DexGraph.Proofs.Assembly.Links
import DexGraph.Proofs.Codec.WellFormed
import DexGraph.Proofs.Format.Rows
import DexGraph.Proofs.Writing.Mirrors

/-!
# What an image shows of an entity

An image holds an entity under a layout, and a view knows what lies at the offsets of the image. Then
the survey of the entity reads one that mirrors it, if the entity is well formed and the view finds
everything to which it refers (`Section.shows_of_encode`). The pointers that are met are the links
of the entity, each with the offset that the layout has for it.
-/

namespace DexGraph

/-! ## Offsets in an image -/

namespace Layout

/-- The pointer that an image holds for a link. -/
def pointer (l : Layout) (k : Link) : Pointer :=
  ⟨k.1, (k.2.bind fun r => (l.place r).offset).getD 0⟩

/-- Entries of tables correspond by index, data items by the offset in the image. -/
def pairing (l : Layout) (v : View) : Pairing := fun s r r' =>
  match s.rowSize? with
  | some _ => r = r'
  | none => ∃ o, (l.place r).offset = some o ∧ v.find? s o = some r'

/-- The view has an entity for the reference. -/
def Finds (l : Layout) (v : View) (s : Section) (r : Ref s) : Prop :=
  match s.rowSize? with
  | some _ => v.graph.Has s r ∧ r.slot ≠ noIndex
  | none => ∃ o, (l.place r).offset = some o ∧ o ≠ 0 ∧ (v.find? s o).isSome

end Layout

/-! ## Surveys that find what has been stored -/

namespace Survey

variable {α β : Type} {v : View} {part rest : List UInt8} {met met' : List Pointer} {R : α → Prop}

/-- Wherever the bytes stand the survey reads a value of which `R` holds, meets the given pointers
and stops behind the bytes. -/
def Shows (m : Survey α) (v : View) (part : List UInt8) (met : List Pointer) (R : α → Prop) :
    Prop :=
  ∀ (data : Bytes) (p : Nat), data.HoldsAt p part →
    ∃ a, m.Reads v data p a met (p + part.length) ∧ R a

theorem shows_pure {a : α} (h : R a) : (pure a : Survey α).Shows v [] [] R :=
  fun _ _ _ => ⟨a, reads_pure_iff.mpr ⟨rfl, rfl, rfl⟩, h⟩

theorem Shows.bind {S : β → Prop} {m : Survey α} {f : α → Survey β} (h : m.Shows v part met R)
    (hf : ∀ a, R a → (f a).Shows v rest met' S) :
    (m >>= f).Shows v (part ++ rest) (met ++ met') S := by
  intro data p hat
  obtain ⟨hpart, hrest⟩ := Bytes.holdsAt_append.mp hat
  obtain ⟨a, ha, hR⟩ := h data p hpart
  obtain ⟨b, hb, hS⟩ := hf a hR data _ hrest
  rw [List.length_append, ← Nat.add_assoc]
  exact ⟨b, ha.bind hb, hS⟩

/-- A step that takes no bytes and meets nothing. -/
theorem Shows.lookup_bind {S : β → Prop} {m : Survey α} {f : α → Survey β}
    (h : m.Shows v [] [] R) (hf : ∀ a, R a → (f a).Shows v part met S) :
    (m >>= f).Shows v part met S :=
  h.bind hf

/-- A step that takes no bytes and meets a pointer. -/
theorem Shows.item_bind {S : β → Prop} {m : Survey α} {f : α → Survey β} {t : Pointer}
    (h : m.Shows v [] [t] R) (hf : ∀ a, R a → (f a).Shows v part met S) :
    (m >>= f).Shows v part (t :: met) S :=
  h.bind hf

theorem Shows.mono {S : α → Prop} {m : Survey α} (h : m.Shows v part met R)
    (hRS : ∀ a, R a → S a) : m.Shows v part met S := by
  intro data p hat
  obtain ⟨a, ha, hR⟩ := h data p hat
  exact ⟨a, ha, hRS a hR⟩

theorem shows_decodeWith {d : Graph → Decoder α} {a : α} (h : (d v.graph).Recovers part a)
    (hR : R a) : (decodeWith d).Shows v part [] R :=
  fun data p hat => ⟨a, reads_decodeWith_iff.mpr ⟨h data p hat, rfl⟩, hR⟩

theorem shows_decode {d : Decoder α} {a : α} (h : d.Recovers part a) (hR : R a) :
    (decode d).Shows v part [] R :=
  shows_decodeWith (d := fun _ => d) h hR

theorem shows_decodeWith_bind {d : Graph → Decoder β} {f : β → Survey α} {b : β}
    (h : (d v.graph).Recovers part b) (hf : (f b).Shows v rest met R) :
    (decodeWith d >>= f).Shows v (part ++ rest) met R := by
  have hd : (decodeWith d).Shows v part [] (· = b) := shows_decodeWith h rfl
  exact hd.bind fun _ hb => hb ▸ hf

theorem shows_decode_bind {d : Decoder β} {f : β → Survey α} {b : β} (h : d.Recovers part b)
    (hf : (f b).Shows v rest met R) : (decode d >>= f).Shows v (part ++ rest) met R :=
  shows_decodeWith_bind (d := fun _ => d) h hf

theorem shows_lookup_bind {d : Graph → Decoder β} {f : β → Survey α} {b : β}
    (h : (d v.graph).Recovers [] b) (hf : (f b).Shows v part met R) :
    (decodeWith d >>= f).Shows v part met R :=
  shows_decodeWith_bind h hf

theorem shows_ofExcept_bind {x : Except Error β} {f : β → Survey α} {b : β} (h : x = .ok b)
    (hf : (f b).Shows v part met R) : (decode (Decoder.ofExcept x) >>= f).Shows v part met R :=
  shows_decode_bind (Decoder.recovers_ofExcept h) hf

theorem shows_row_bind {row : Type} [Row row] [Row.Readable row] {f : row → Survey α} {a : row}
    (hf : (f a).Shows v [] met R) :
    (decode Row.decode >>= f).Shows v (Row.encode a).toList met R := by
  have hrow : (Row.decode : Decoder row).Recovers (Row.encode a).toList a := by
    intro data p hat
    rw [Array.length_toList, Row.Readable.size_encode]
    exact Row.Readable.reads hat
  have hbind := shows_decode_bind hrow hf
  rwa [List.append_nil] at hbind

theorem shows_resolve_bind {s : Section} {r : Ref s} {index : UInt32} {f : Ref s → Survey α}
    (hs : s.rowSize? ≠ none) {l : Layout} (hr : l.Finds v s r) (hindex : index = r.slot)
    (hf : (f r).Shows v part met R) : (resolve s index >>= f).Shows v part met R := by
  have hhas : v.graph.Has s r := by
    unfold Layout.Finds at hr
    split at hr
    · exact hr.1
    · rename_i hnone
      exact absurd hnone hs
  exact shows_lookup_bind (hindex ▸ Decoder.recovers_ofExcept
    (Graph.resolve_slot hhas)) hf

theorem shows_resolveOrNone_bind {s : Section} {r : Option (Ref s)} {f : Option (Ref s) → Survey α}
    (hs : s.rowSize? ≠ none) {l : Layout} (hr : ∀ x ∈ r, l.Finds v s x)
    (hf : (f r).Shows v part met R) :
    (resolveOrNone s (indexOrNone r) >>= f).Shows v part met R := by
  have hresolve : v.graph.resolveOrNone s (indexOrNone r) = .ok r := by
    cases r with
    | none => rfl
    | some r =>
      have hfinds := hr r rfl
      unfold Layout.Finds at hfinds
      split at hfinds
      · change (if r.slot = noIndex then _ else _) = _
        rw [if_neg hfinds.2]
        change (do return some (← v.graph.resolve s r.slot) : Except Error (Option (Ref s))) = _
        rw [Graph.resolve_slot hfinds.1]
        rfl
      · rename_i hnone
        exact absurd hnone hs
  exact shows_lookup_bind (Decoder.recovers_ofExcept hresolve) hf

section Links

variable {l : Layout} {s : Section} (hs : s.rowSize? = none) {o : UInt32}
include hs

/-- An item is taken that the view finds. -/
theorem shows_item {r : Ref s} (hr : l.Finds v s r) (ho : l.offsetOf r = .ok o) :
    (item s o).Shows v [] [l.pointer ⟨s, some r⟩] (l.pairing v s r) := by
  intro data p _
  unfold Layout.Finds at hr
  unfold Layout.pairing
  rw [hs] at hr ⊢
  obtain ⟨o', ho', -, hfound⟩ := hr
  cases (Layout.offsetOf_eq_ok_iff.mp ho).symm.trans ho'
  obtain ⟨r', hr'⟩ := Option.isSome_iff_exists.mp hfound
  have hpointer : l.pointer ⟨s, some r⟩ = ⟨s, o⟩ := by
    simp [Layout.pointer, ho']
  exact ⟨r', reads_item_iff.mpr ⟨hr', by rw [hpointer], rfl⟩, o, ho', hr'⟩

theorem shows_item? {r : Option (Ref s)} (hr : ∀ x ∈ r, l.Finds v s x)
    (ho : l.offsetOrZero r = .ok o) :
    (item? s o).Shows v [] [l.pointer ⟨s, r⟩] (Option.Rel (l.pairing v s) r) := by
  intro data p hat
  cases r with
  | none =>
    cases ho
    exact ⟨none, reads_item?_iff.mpr ⟨rfl, nofun, rfl, rfl⟩, .none⟩
  | some r =>
    obtain ⟨r', hread, hpair⟩ := shows_item hs (hr r rfl) ho data p hat
    obtain ⟨hfind, hmet, hq⟩ := reads_item_iff.mp hread
    have hzero : o ≠ 0 := by
      have hfinds := hr r rfl
      unfold Layout.Finds at hfinds
      rw [hs] at hfinds
      obtain ⟨o', ho', hne, -⟩ := hfinds
      cases (Layout.offsetOf_eq_ok_iff.mp ho).symm.trans ho'
      exact hne
    refine ⟨some r', reads_item?_iff.mpr ⟨?_, fun _ => rfl, hmet, hq⟩, .some hpair⟩
    rw [if_neg hzero, hfind]

end Links

/-- What is read one after the other is what each piece shows. -/
theorem shows_gather {m : Survey α} {encode : β → Except Error Bytes} {pointer : β → Pointer}
    {R : β → α → Prop} {xs : List β} {n : Nat} (hn : xs.length = n)
    (h : ∀ x ∈ xs, ∀ part, encode x = .ok part → m.Shows v part.toList [pointer x] (R x))
    (hpart : Bytes.pieces encode xs = .ok part) :
    (gather n m).Shows v part (xs.map pointer) fun ys => List.Forall₂ R xs ys.toList := by
  have hfrom (done : Array α) : (gatherFrom done xs.length m).Shows v part (xs.map pointer)
      fun ys => ∃ new, ys.toList = done.toList ++ new ∧ List.Forall₂ R xs new := by
    induction xs generalizing done n part with
    | nil =>
      cases hpart
      exact shows_pure ⟨[], by simp, .nil⟩
    | cons x xs ih =>
      simp only [Bytes.pieces, Except.bind_eq_ok_iff, Except.pure_eq_ok_iff] at hpart
      obtain ⟨head, hhead, tail, htail, rfl⟩ := hpart
      refine (h x List.mem_cons_self head hhead).bind fun a ha => ?_
      refine (ih rfl (fun y hy => h y (List.mem_cons_of_mem _ hy)) htail (done.push a)).mono ?_
      rintro ys ⟨new, hys, hnew⟩
      exact ⟨a :: new, by simp [hys], .cons ha hnew⟩
  subst hn
  refine (hfrom #[]).mono ?_
  rintro ys ⟨new, hys, hnew⟩
  rw [hys]
  exact hnew

end Survey


/-! ## Members -/

theorem FieldItem.forall₂_bare (fields : Array FieldItem) :
    List.Forall₂ Mirrors fields.toList (fields.map bare).toList := by
  rw [Array.toList_map, List.forall₂_map_right_iff]
  exact forall₂_refl (fun _ => ⟨rfl, rfl⟩) _

/-- Methods that have been stored are read again, with the bodies that the view finds. -/
theorem MethodItem.shows_surveyFrom {l : Layout} {v : View} {last : Option UInt32}
    {xs : List MethodItem} {out : List UInt8}
    (h : memberBytes (·.method.slot) (details l) last xs = .ok out)
    (hwell : ∀ m ∈ xs, m.WellFormed)
    (hrefs : ∀ m ∈ xs, l.Finds v .methodId m.method ∧ ∀ r ∈ m.code, l.Finds v .codeItem r)
    (done : Array MethodItem) :
    (surveyFrom (last.getD 0) done xs.length).Shows v out
      (xs.map fun m => l.pointer ⟨.codeItem, m.code⟩)
      fun ys => ∃ new, ys.toList = done.toList ++ new ∧
        List.Forall₂ (MethodItem.Mirrors (l.pairing v)) xs new := by
  induction xs generalizing last out done with
  | nil =>
    cases h
    exact Survey.shows_pure ⟨[], by simp, .nil⟩
  | cons m xs ih =>
    simp only [memberBytes, Except.bind_eq_ok_iff, Except.pure_eq_ok_iff, details] at h
    obtain ⟨delta, hdelta, detail, ⟨o, ho, rfl⟩, tail, htail, rfl⟩ := h
    obtain ⟨hmethod, hcode⟩ := hrefs m List.mem_cons_self
    have hm := hwell m List.mem_cons_self
    rw [hm.body?] at ho
    rw [Array.toList_append, List.append_assoc, List.append_assoc]
    refine Survey.shows_decode_bind Decoder.recovers_unsignedLeb ?_
    refine Survey.shows_ofExcept_bind (nextIndex_of_memberDelta hdelta) ?_
    refine Survey.shows_decode_bind Decoder.recovers_unsignedLeb ?_
    refine Survey.shows_decode_bind Decoder.recovers_unsignedLeb ?_
    refine Survey.shows_resolve_bind (by decide) hmethod rfl ?_
    refine (Survey.shows_item? rfl hcode ho).item_bind fun code hpair => ?_
    refine (ih htail (fun m' hm' => hwell m' (List.mem_cons_of_mem _ hm'))
      (fun m' hm' => hrefs m' (List.mem_cons_of_mem _ hm')) _).mono ?_
    rintro ys ⟨new, hys, hnew⟩
    refine ⟨⟨m.accessFlags, m.method, code, none⟩ :: new, by simp [hys], .cons ⟨rfl, rfl, ?_⟩ hnew⟩
    unfold MethodItem.body?
    change Option.Rel _ (if m.isNative then _ else _) (if m.isNative then _ else _)
    split
    · exact .none
    · exact hpair

/-- What an image holds of a class is read again. -/
theorem ClassData.shows_survey {l : Layout} {v : View} {x : ClassData} {bytes : Bytes}
    (h : x.encode l = .ok bytes) (hrefs : Section.classData.AllRefs (l.Finds v) x)
    (hwell : ∀ m ∈ x.allMethods, m.WellFormed) :
    survey.Shows v bytes.toList ((Section.classData.links x).map l.pointer)
      (Section.classData.Mirrors (l.pairing v) x) := by
  obtain ⟨⟨hs, hi, hd, hv⟩, static, inst, direct, virtual, hstatic, hinst, hdirect, hvirtual,
    hbytes⟩ := encode_eq_ok_iff.mp h
  have hfields (fields : Array FieldItem) (hsub : ∀ f ∈ fields, f ∈ x.allFields) :
      ∀ f ∈ fields, v.graph.Has .fieldId f.field := fun f hf => (hrefs.1 f (hsub f hf)).1
  have hmethods {methods : Array MethodItem} {part : List UInt8}
      (hlist : MethodItem.listBytes l methods = .ok part) (hsize : methods.size < 2 ^ 32)
      (hsub : ∀ m ∈ methods, m ∈ x.allMethods) :
      (MethodItem.surveyFrom 0 #[] methods.size.toUInt32.toNat).Shows v part
        (methods.toList.map fun m => l.pointer ⟨.codeItem, m.code⟩)
        fun ys => List.Forall₂ (MethodItem.Mirrors (l.pairing v)) methods.toList ys.toList := by
    have hfrom := MethodItem.shows_surveyFrom hlist
      (fun m hm => hwell m (hsub m (Array.mem_toList_iff.mp hm)))
      (fun m hm => hrefs.2 m (hsub m (Array.mem_toList_iff.mp hm))) #[]
    rw [Array.length_toList] at hfrom
    rw [toNat_toUInt32 hsize]
    refine hfrom.mono ?_
    rintro ys ⟨new, hys, hnew⟩
    rwa [hys]
  have hlinks : (Section.classData.links x).map l.pointer =
      (x.directMethods.toList.map fun m => l.pointer ⟨.codeItem, m.code⟩) ++
        ((x.virtualMethods.toList.map fun m => l.pointer ⟨.codeItem, m.code⟩) ++ []) := by
    simp [Section.links, ClassData.allMethods, Function.comp_def]
  rw [hbytes, hlinks]
  simp only [counts, List.append_assoc]
  refine Survey.shows_decode_bind Decoder.recovers_unsignedLeb ?_
  refine Survey.shows_decode_bind Decoder.recovers_unsignedLeb ?_
  refine Survey.shows_decode_bind Decoder.recovers_unsignedLeb ?_
  refine Survey.shows_decode_bind Decoder.recovers_unsignedLeb ?_
  refine Survey.shows_decodeWith_bind (FieldItem.decodeList_recovers hstatic hs
    (hfields _ fun f hf => Array.mem_append_left _ hf)) ?_
  refine Survey.shows_decodeWith_bind (FieldItem.decodeList_recovers hinst hi
    (hfields _ fun f hf => Array.mem_append_right _ hf)) ?_
  refine (hmethods hdirect hd fun m hm => Array.mem_append_left _ hm).bind fun ds hds => ?_
  rw [← List.append_nil virtual]
  refine (hmethods hvirtual hv fun m hm => Array.mem_append_right _ hm).bind fun vs hvs => ?_
  exact Survey.shows_pure ⟨FieldItem.forall₂_bare _, FieldItem.forall₂_bare _, hds, hvs⟩

/-! ## Annotations -/

section Annotations

variable {l : Layout} {v : View}

theorem AnnotationSet.shows_survey {x : AnnotationSet} {bytes : Bytes} (h : x.encode l = .ok bytes)
    (hrefs : ∀ r ∈ x.items, l.Finds v .annotationItem r) :
    survey.Shows v bytes.toList ((Section.annotationSet.links x).map l.pointer)
      (Section.annotationSet.Mirrors (l.pairing v) x) := by
  obtain ⟨hsize, tail, htail, hlist⟩ := encodeList_eq_ok_iff.mp h
  have hentry : ∀ r ∈ x.items.toList, ∀ part : Bytes,
      (do return Bytes.ofWord (← l.offsetOf r) : Except Error Bytes) = .ok part →
      surveyEntry.Shows v part.toList [l.pointer ⟨.annotationItem, some r⟩]
        fun found => ∃ r', found = some r' ∧ l.pairing v .annotationItem r r' := by
    intro r hr part hpart
    simp only [Except.bind_eq_ok_iff, Except.pure_eq_ok_iff] at hpart
    obtain ⟨o, ho, rfl⟩ := hpart
    have hfinds := hrefs r (Array.mem_toList_iff.mp hr)
    have hzero : ¬ (o == 0) = true := by
      obtain ⟨o', ho', hne, -⟩ := hfinds
      cases (Layout.offsetOf_eq_ok_iff.mp ho).symm.trans ho'
      simpa using hne
    rw [← List.append_nil (Array.toList _)]
    refine Survey.shows_decode_bind Decoder.recovers_word ?_
    rw [if_neg hzero]
    exact (Survey.shows_item rfl hfinds ho).item_bind fun r' hr' =>
      Survey.shows_pure ⟨r', rfl, hr'⟩
  have hlinks : (Section.annotationSet.links x).map l.pointer =
      (x.items.toList.map fun r => l.pointer ⟨.annotationItem, some r⟩) ++ [] := by
    simp [Section.links, Function.comp_def]
  rw [hlist, hlinks, ← List.append_nil tail]
  refine Survey.shows_decode_bind Decoder.recovers_word ?_
  refine (Survey.shows_gather (Array.length_toList.trans (toNat_toUInt32 hsize).symm) hentry
    htail).bind fun found hfound => Survey.shows_pure ?_
  change List.Forall₂ _ x.items.toList (found.filterMap id).toList
  rw [Array.toList_filterMap]
  generalize x.items.toList = xs, found.toList = ys at hfound
  induction hfound with
  | nil => exact .nil
  | cons hr _ ih =>
    obtain ⟨r', rfl, hr'⟩ := hr
    exact .cons hr' ih

theorem AnnotationSetRefList.shows_survey {x : AnnotationSetRefList} {bytes : Bytes}
    (h : x.encode l = .ok bytes) (hrefs : ∀ o ∈ x.items, ∀ r ∈ o, l.Finds v .annotationSet r) :
    survey.Shows v bytes.toList ((Section.annotationSetRefList.links x).map l.pointer)
      (Section.annotationSetRefList.Mirrors (l.pairing v) x) := by
  obtain ⟨hsize, tail, htail, hlist⟩ := encodeList_eq_ok_iff.mp h
  have hentry : ∀ r ∈ x.items.toList, ∀ part : Bytes,
      (do return Bytes.ofWord (← l.offsetOrZero r) : Except Error Bytes) = .ok part →
      (do
        let setOffset ← Survey.decode Decoder.word
        Survey.item? .annotationSet setOffset : Survey (Option (Ref .annotationSet))).Shows v
          part.toList [l.pointer ⟨.annotationSet, r⟩]
          (Option.Rel (l.pairing v .annotationSet) r) := by
    intro r hr part hpart
    simp only [Except.bind_eq_ok_iff, Except.pure_eq_ok_iff] at hpart
    obtain ⟨o, ho, rfl⟩ := hpart
    rw [← List.append_nil (Array.toList _)]
    exact Survey.shows_decode_bind Decoder.recovers_word
      (Survey.shows_item? rfl (hrefs r (Array.mem_toList_iff.mp hr)) ho)
  have hlinks : (Section.annotationSetRefList.links x).map l.pointer =
      (x.items.toList.map fun r => l.pointer ⟨.annotationSet, r⟩) ++ [] := by
    simp [Section.links, Function.comp_def]
  rw [hlist, hlinks, ← List.append_nil tail]
  refine Survey.shows_decode_bind Decoder.recovers_word ?_
  exact (Survey.shows_gather (Array.length_toList.trans (toNat_toUInt32 hsize).symm) hentry
    htail).bind fun found hfound => Survey.shows_pure hfound

theorem MemberAnnotations.shows_survey {member notes : Section} (hmember : member.rowSize? ≠ none)
    (hnotes : notes.rowSize? = none) {x : MemberAnnotations member notes} {part : Bytes}
    (h : x.encode l = .ok part) (howner : l.Finds v member x.owner)
    (hannotations : ∀ r ∈ x.annotations, l.Finds v notes r) :
    (survey member notes).Shows v part.toList [l.pointer ⟨notes, x.annotations⟩]
      (x.Mirrors (l.pairing v)) := by
  obtain ⟨o, ho, rfl⟩ := encode_eq_ok_iff.mp h
  rw [Array.toList_append, ← List.append_nil (Bytes.ofWord o).toList]
  refine Survey.shows_decode_bind Decoder.recovers_word ?_
  refine Survey.shows_decode_bind Decoder.recovers_word ?_
  refine Survey.shows_resolve_bind hmember howner rfl ?_
  exact (Survey.shows_item? hnotes hannotations ho).item_bind fun r hr =>
    Survey.shows_pure ⟨rfl, hr⟩

theorem AnnotationsDirectory.shows_survey {x : AnnotationsDirectory} {bytes : Bytes}
    (h : x.encode l = .ok bytes) (hrefs : Section.annotationsDirectory.AllRefs (l.Finds v) x) :
    survey.Shows v bytes.toList ((Section.annotationsDirectory.links x).map l.pointer)
      (Section.annotationsDirectory.Mirrors (l.pairing v) x) := by
  obtain ⟨hclass, hfields, hmethods, hparameters⟩ := hrefs
  obtain ⟨hf, hm, hp, o, fields, methods, parameters, ho, hfieldBytes, hmethodBytes,
    hparameterBytes, hbytes⟩ := encode_eq_ok_iff.mp h
  have hlist {member notes : Section} (hmember : member.rowSize? ≠ none)
      (hnotes : notes.rowSize? = none) {xs : Array (MemberAnnotations member notes)}
      {part : List UInt8} (hsize : xs.size < 2 ^ 32)
      (hpart : Bytes.pieces (MemberAnnotations.encode l) xs.toList = .ok part)
      (hall : ∀ e ∈ xs, l.Finds v member e.owner ∧ ∀ r ∈ e.annotations, l.Finds v notes r) :
      (gather xs.size.toUInt32.toNat (MemberAnnotations.survey member notes)).Shows v part
        (xs.toList.map fun e => l.pointer ⟨notes, e.annotations⟩)
        fun ys => List.Forall₂ (MemberAnnotations.Mirrors (l.pairing v)) xs.toList ys.toList :=
    Survey.shows_gather (Array.length_toList.trans (toNat_toUInt32 hsize).symm)
      (fun e he part hpart => MemberAnnotations.shows_survey hmember hnotes hpart
        (hall e (Array.mem_toList_iff.mp he)).1 (hall e (Array.mem_toList_iff.mp he)).2) hpart
  have hlinks : (Section.annotationsDirectory.links x).map l.pointer =
      [l.pointer ⟨_, x.classAnnotations⟩] ++
        ((x.fields.toList.map fun e => l.pointer ⟨_, e.annotations⟩) ++
        ((x.methods.toList.map fun e => l.pointer ⟨_, e.annotations⟩) ++
        ((x.parameters.toList.map fun e => l.pointer ⟨_, e.annotations⟩) ++ []))) := by
    simp [Section.links, Function.comp_def]
  rw [hbytes, hlinks]
  simp only [headBytes, List.append_assoc]
  refine Survey.shows_decode_bind Decoder.recovers_word ?_
  refine Survey.shows_decode_bind Decoder.recovers_word ?_
  refine Survey.shows_decode_bind Decoder.recovers_word ?_
  refine Survey.shows_decode_bind Decoder.recovers_word ?_
  refine (Survey.shows_item? rfl hclass ho).item_bind fun c hc => ?_
  refine (hlist (by decide) rfl hf hfieldBytes hfields).bind fun fs hfs => ?_
  refine (hlist (by decide) rfl hm hmethodBytes hmethods).bind fun ms hms => ?_
  rw [← List.append_nil parameters]
  refine (hlist (by decide) rfl hp hparameterBytes hparameters).bind fun ps hps => ?_
  exact Survey.shows_pure ⟨hc, hfs, hms, hps⟩

end Annotations

/-! ## Bodies -/

namespace CodeItem

open Decoder

variable {code : CodeItem} {off : UInt32} {item : Stream}

/-- What an image holds of a body is read again, but for the order of the handlers. -/
theorem shows_survey {l : Layout} {v : View} (ho : l.offsetOrZero code.debugInfo = .ok off)
    (h : code.encode off = .ok item) (hrefs : Section.codeItem.AllRefs (l.Finds v) code)
    (hwell : code.WellFormed) (hlength : item.length < 2 ^ 32) :
    Section.codeItem.survey.Shows v item.toBytes.toList
      ((Section.codeItem.links code).map l.pointer)
      (Section.codeItem.Mirrors (l.pairing v) code) := by
  intro data p hat
  obtain ⟨hdebug, htypes⟩ := hrefs
  have hproper : ∀ x ∈ code.handlers, x.Proper v.graph := fun x hx =>
    (hwell.handlers x hx).proper (fun c hc r hr => (htypes x hx c hc r hr).1)
      (Nat.lt_of_le_of_lt (hwell.size_le h x hx) hlength)
  obtain ⟨d, hd, hpair⟩ := Survey.shows_item? rfl hdebug ho data (p + 16)
    (Bytes.holdsAt_nil data (p + 16))
  obtain ⟨code', hread, hmatches⟩ := @exists_decode_of_contiguous v.graph data p code off item d h
    hat hproper hwell.tries hwell.contiguous
  have hheader := recovers_header (code.headerOf off) data p
    (Bytes.holdsAt_append.mp (holdsAt_of_encode h hat).1).1
  rw [Array.length_toList, size_encode_header] at hheader
  have hafter := (reads_bind_iff_of_reads hheader).mp hread
  rw [Array.length_toList, Stream.size_toBytes]
  have hhead : (Survey.decode CodeHeader.decode).Reads v data p (code.headerOf off) [] (p + 16) :=
    Survey.reads_decode_iff.mpr ⟨hheader, rfl⟩
  have hdebug' : code'.debugInfo = d := hmatches.debugInfo
  refine ⟨code', hhead.bind (hd.bind (Survey.reads_decodeWith_iff.mpr ⟨hafter, rfl⟩)), ?_,
    ?_, fun o => ?_⟩
  · rw [hdebug']
    exact hpair
  · rw [hdebug']
    exact hmatches
  · obtain ⟨item', hitem', -⟩ := encode_with_offset h o
    obtain ⟨handlers, hperm, hcontiguous⟩ := hwell.contiguous
    have hapart : code.handlers.toList.Pairwise CatchHandler.Apart :=
      (hperm.pairwise_iff CatchHandler.Apart.symm).mp hcontiguous.apart
    obtain ⟨item'', hitem'', halike⟩ := hmatches.encode hapart hitem'
    rw [hitem', hitem'']
    exact halike

end CodeItem

/-! ## Entities -/

theorem MethodHandle.shows_survey {l : Layout} {v : View} {x : MethodHandle} {row : MethodHandleRow}
    (h : x.toRow = .ok row) (hrefs : Section.methodHandle.AllRefs (l.Finds v) x)
    (hwell : x.WellFormed) :
    row.survey.Shows v [] [] (x = ·) := by
  simp only [toRow, Except.bind_eq_ok_iff, Except.pure_eq_ok_iff, toHalfWord_eq_ok_iff] at h
  obtain ⟨index, hindex, rfl⟩ := h
  obtain ⟨kind, target⟩ := x
  have hslot : index.toUInt32 = target.index :=
    UInt32.toNat_inj.mp (by rw [UInt16.toNat_toUInt32]; exact hindex.symm)
  unfold MethodHandleRow.survey HandleTarget.survey
  rw [MethodHandleKind.ofCode?_code]
  cases target with
  | field r =>
    have hkind : kind.accessesField = true := hwell
    have hr : l.Finds v .fieldId r := hrefs
    simp only [hkind, if_true]
    exact Survey.Shows.lookup_bind (R := (HandleTarget.field r = ·))
      (Survey.shows_resolve_bind (by decide) hr hslot (Survey.shows_pure rfl))
      fun t ht => ht ▸ Survey.shows_pure rfl
  | method r =>
    have hkind : kind.accessesField = false := hwell
    have hr : l.Finds v .methodId r := hrefs
    simp only [hkind, Bool.false_eq_true, if_false]
    exact Survey.Shows.lookup_bind (R := (HandleTarget.method r = ·))
      (Survey.shows_resolve_bind (by decide) hr hslot (Survey.shows_pure rfl))
      fun t ht => ht ▸ Survey.shows_pure rfl

namespace Section

variable {l : Layout} {v : View} {s : Section} {x : s.Content} {item : Stream}

/-- Where an image holds an entity the survey reads one that mirrors it and meets its links. -/
theorem shows_of_encode (h : s.encode l x = .ok item) (hrefs : s.AllRefs (l.Finds v) x)
    (hwell : s.WellFormed x) (hlength : item.length < 2 ^ 32) :
    s.survey.Shows v item.toBytes.toList ((s.links x).map l.pointer)
      (s.Mirrors (l.pairing v) x) := by
  have hindex {t : Section} {index : UInt16} {r : Ref t} (h : toHalfWord r.pos = .ok index) :
      index.toUInt32 = r.slot :=
    UInt32.toNat_inj.mp (by rw [UInt16.toNat_toUInt32]; exact (toHalfWord_eq_ok_iff.mp h).symm)
  have hhas {t : Section} (ht : t.rowSize? ≠ none) {r : Ref t} (hr : l.Finds v t r) :
      v.graph.Has t r := by
    unfold Layout.Finds at hr
    split at hr
    · exact hr.1
    · rename_i hnone
      exact absurd hnone ht
  cases s with
  | codeItem =>
    obtain ⟨o, ho, hitem⟩ := Except.bind_eq_ok_iff.mp h
    exact CodeItem.shows_survey ho hitem hrefs hwell hlength
  | stringData =>
    cases h
    rw [Stream.toBytes_ofBytes]
    exact Survey.shows_decode (StringData.decode_recovers hwell) rfl
  | debugInfo =>
    cases h
    rw [Stream.toBytes_ofBytes]
    exact Survey.shows_decode (DebugInfo.decode_recovers hwell) rfl
  | typeList =>
    obtain ⟨bytes, hbytes, rfl⟩ := Except.map_eq_ok_iff.mp h
    rw [Stream.toBytes_ofBytes]
    exact Survey.shows_decodeWith (TypeList.decode_recovers hbytes fun r hr =>
      hhas (by decide) (hrefs r hr)) rfl
  | encodedArray =>
    obtain ⟨bytes, hbytes, rfl⟩ := Except.map_eq_ok_iff.mp h
    rw [Stream.toBytes_ofBytes, ← List.append_nil (Array.toList _)]
    exact Survey.shows_decodeWith_bind (Value.decodeArray_recovers hbytes
      (Value.AllRefsEach.mono (fun t ht r => hhas ht) hrefs)) (Survey.shows_pure rfl)
  | annotationItem =>
    obtain ⟨bytes, hbytes, rfl⟩ := Except.map_eq_ok_iff.mp h
    obtain ⟨htype, helements⟩ := hrefs
    rw [Stream.toBytes_ofBytes, ← List.append_nil bytes]
    have hvisibility : Decoder.byte.Recovers [x.visibility.code] x.visibility.code :=
      Decoder.recovers_byte
    refine Survey.shows_decode_bind hvisibility ?_
    rw [Visibility.ofCode?_code]
    exact Survey.shows_decodeWith_bind ( Annotation.decode_recovers hbytes (hhas (by decide) htype)
      (Value.AllRefsElements.mono (fun t ht r => hhas ht) helements)) (Survey.shows_pure rfl)
  | annotationSet =>
    obtain ⟨bytes, hbytes, rfl⟩ := Except.map_eq_ok_iff.mp h
    rw [Stream.toBytes_ofBytes]
    exact AnnotationSet.shows_survey hbytes hrefs
  | annotationSetRefList =>
    obtain ⟨bytes, hbytes, rfl⟩ := Except.map_eq_ok_iff.mp h
    rw [Stream.toBytes_ofBytes]
    exact AnnotationSetRefList.shows_survey hbytes hrefs
  | annotationsDirectory =>
    obtain ⟨bytes, hbytes, rfl⟩ := Except.map_eq_ok_iff.mp h
    rw [Stream.toBytes_ofBytes]
    exact AnnotationsDirectory.shows_survey hbytes hrefs
  | classData =>
    obtain ⟨bytes, hbytes, rfl⟩ := Except.map_eq_ok_iff.mp h
    rw [Stream.toBytes_ofBytes]
    exact ClassData.shows_survey hbytes hrefs hwell
  | stringId =>
    obtain ⟨row, hrow, rfl⟩ := Except.map_eq_ok_iff.mp h
    obtain ⟨o, ho, rfl⟩ := Except.map_eq_ok_iff.mp hrow
    have hdata : l.Finds v .stringData x.data := hrefs
    rw [Stream.toBytes_ofBytes]
    exact Survey.shows_row_bind ((Survey.shows_item rfl hdata ho).item_bind
      fun r hr => Survey.shows_pure hr)
  | typeId =>
    cases h
    have hdescriptor : l.Finds v .stringId x.descriptor := hrefs
    rw [Stream.toBytes_ofBytes]
    exact Survey.shows_row_bind (Survey.shows_resolve_bind (by decide) hdescriptor rfl
      (Survey.shows_pure rfl))
  | protoId =>
    obtain ⟨row, hrow, rfl⟩ := Except.map_eq_ok_iff.mp h
    obtain ⟨o, ho, rfl⟩ := Except.map_eq_ok_iff.mp hrow
    obtain ⟨hshorty, hreturn, hparameters⟩ := hrefs
    rw [Stream.toBytes_ofBytes]
    exact Survey.shows_row_bind (Survey.shows_resolve_bind (by decide) hshorty rfl
      (Survey.shows_resolve_bind (by decide) hreturn rfl
      ((Survey.shows_item? rfl hparameters ho).item_bind
        fun r hr => Survey.shows_pure ⟨rfl, rfl, hr⟩)))
  | fieldId =>
    obtain ⟨row, hrow, rfl⟩ := Except.map_eq_ok_iff.mp h
    simp only [FieldId.toRow, Except.bind_eq_ok_iff, Except.pure_eq_ok_iff] at hrow
    obtain ⟨owner, howner, type, htype, rfl⟩ := hrow
    obtain ⟨hownerRef, htypeRef, hname⟩ := hrefs
    rw [Stream.toBytes_ofBytes]
    exact Survey.shows_row_bind (Survey.shows_resolve_bind (by decide) hownerRef (hindex howner)
      (Survey.shows_resolve_bind (by decide) htypeRef (hindex htype)
      (Survey.shows_resolve_bind (by decide) hname rfl (Survey.shows_pure rfl))))
  | methodId =>
    obtain ⟨row, hrow, rfl⟩ := Except.map_eq_ok_iff.mp h
    simp only [MethodId.toRow, Except.bind_eq_ok_iff, Except.pure_eq_ok_iff] at hrow
    obtain ⟨owner, howner, proto, hproto, rfl⟩ := hrow
    obtain ⟨hownerRef, hprotoRef, hname⟩ := hrefs
    rw [Stream.toBytes_ofBytes]
    exact Survey.shows_row_bind (Survey.shows_resolve_bind (by decide) hownerRef (hindex howner)
      (Survey.shows_resolve_bind (by decide) hprotoRef (hindex hproto)
      (Survey.shows_resolve_bind (by decide) hname rfl (Survey.shows_pure rfl))))
  | methodHandle =>
    obtain ⟨row, hrow, rfl⟩ := Except.map_eq_ok_iff.mp h
    rw [Stream.toBytes_ofBytes]
    exact Survey.shows_row_bind (MethodHandle.shows_survey hrow hrefs hwell)
  | callSiteId =>
    obtain ⟨row, hrow, rfl⟩ := Except.map_eq_ok_iff.mp h
    obtain ⟨o, ho, rfl⟩ := Except.map_eq_ok_iff.mp hrow
    have harray : ∀ r ∈ some x.array, l.Finds v .encodedArray r := fun r hr => by
      cases hr
      exact hrefs
    rw [Stream.toBytes_ofBytes]
    refine Survey.shows_row_bind ((Survey.shows_item? (r := some x.array) rfl harray ho).item_bind
      fun r hr => ?_)
    cases hr with
    | some hr => exact Survey.shows_pure hr
  | classDef =>
    obtain ⟨row, hrow, rfl⟩ := Except.map_eq_ok_iff.mp h
    simp only [ClassDef.toRow, Except.bind_eq_ok_iff, Except.pure_eq_ok_iff] at hrow
    obtain ⟨interfaces, hi, annotations, ha, classData, hc, staticValues, hv, rfl⟩ := hrow
    obtain ⟨htype, hsuper, hinterfaces, hfile, hnotes, hdata, hvalues⟩ := hrefs
    rw [Stream.toBytes_ofBytes]
    refine Survey.shows_row_bind ?_
    refine Survey.shows_resolve_bind (by decide) htype rfl ?_
    refine Survey.shows_resolveOrNone_bind (by decide) hsuper ?_
    refine (Survey.shows_item? rfl hinterfaces hi).item_bind fun i hi => ?_
    refine Survey.shows_resolveOrNone_bind (by decide) hfile ?_
    refine (Survey.shows_item? rfl hnotes ha).item_bind fun a ha => ?_
    refine (Survey.shows_item? rfl hvalues hv).item_bind fun v hv => ?_
    refine (Survey.shows_item? rfl hdata hc).item_bind fun c hc => ?_
    exact Survey.shows_pure ⟨rfl, rfl, rfl, hi, rfl, ha, hc, hv⟩

end Section

end DexGraph
