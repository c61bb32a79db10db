import DexGraph.Proofs.Assembly.Establishes

/-!
# Contents do not depend on whether offsets are kept

Whether entities keep the offsets at which they were met decides what the layout records and
nothing else. `Build.Oblivious b` says so of a step: started from assemblies that agree apart from
their layouts, of which one keeps offsets and the other may not, it comes to the same result in
both, and the assemblies still agree. It holds of a whole build because it holds of every way of
building steps and of the few steps that touch the layout.
-/

namespace DexGraph

/-- The same source, with offsets kept or not. -/
def Source.keeping (source : Source) (keep : Bool) : Source :=
  { source with options := { source.options with keepOffsets := keep } }

/-- The assemblies agree in everything but their layouts, and in the size of the hidden-API section,
which writing looks at. -/
structure Assembly.Alike (a a' : Assembly) : Prop where
  graph : a.graph = a'.graph
  known : a.known = a'.known
  hiddenapiSize : a.layout.hiddenapi.size = a'.layout.hiddenapi.size

namespace Build

variable {α β : Type}

/-- Two runs end alike: with the same result and assemblies that agree, or with the same error. -/
def Agree : Except Error (α × Assembly) → Except Error (α × Assembly) → Prop
  | .ok (x, a), .ok (x', a') => x = x' ∧ a.Alike a'
  | .error e, .error e' => e = e'
  | _, _ => False

/-- The step comes to the same, whether offsets are kept or not and whatever the layout records. -/
def Oblivious (b : Build α) : Prop :=
  ∀ source keep a a', a.Alike a' → Agree (b source a) (b (source.keeping keep) a')

theorem oblivious_pure {x : α} : Oblivious (pure x) :=
  fun _ _ _ _ h => ⟨rfl, h⟩

theorem Oblivious.bind {b : Build β} {f : β → Build α} (hb : b.Oblivious)
    (hf : ∀ x, (f x).Oblivious) : (b >>= f).Oblivious := by
  intro source keep a a' h
  have hstep := hb source keep a a' h
  rw [run_bind, run_bind]
  cases hrun : b source a with
  | ok out =>
    cases hrun' : b (source.keeping keep) a' with
    | ok out' =>
      rw [hrun, hrun'] at hstep
      have hnext := hf out.1 source keep out.2 out'.2 hstep.2
      dsimp only
      rwa [← hstep.1]
    | error e =>
      rw [hrun, hrun'] at hstep
      exact False.elim hstep
  | error e =>
    cases hrun' : b (source.keeping keep) a' with
    | ok out' =>
      rw [hrun, hrun'] at hstep
      exact False.elim hstep
    | error e' => rwa [hrun, hrun'] at hstep

theorem oblivious_ofExcept (x : Except Error α) : (ofExcept x).Oblivious := by
  intro source keep a a' h
  cases x with
  | ok x => exact ⟨rfl, h⟩
  | error e => exact rfl

theorem oblivious_refuse (defect : Defect) : (refuse defect : Build α).Oblivious :=
  oblivious_ofExcept _

/-- A step may look at the assembly, except for its layout. -/
theorem oblivious_get_bind {f : Assembly → Build α} (hf : ∀ a, (f a).Oblivious)
    (hlayout : ∀ a a', a.Alike a' → f a = f a') : Oblivious (get >>= f) := by
  intro source keep a a' h
  have hrun := hf a source keep a a' h
  change Agree (f a source a) (f a' (source.keeping keep) a')
  rwa [← hlayout a a' h]

/-- A step may look at the source, except for whether offsets are kept. -/
theorem oblivious_read_bind {f : Source → Build α} (hf : ∀ source, (f source).Oblivious)
    (hkeep : ∀ source keep, f (source.keeping keep) = f source) : Oblivious (read >>= f) := by
  intro source keep a a' h
  have hrun := hf source source keep a a' h
  change Agree (f source source a) (f (source.keeping keep) (source.keeping keep) a')
  rwa [hkeep]

theorem oblivious_changeGraph (f : Graph → Graph) : (changeGraph f).Oblivious :=
  fun _ _ _ _ h => ⟨rfl, congrArg f h.graph, h.known, h.hiddenapiSize⟩

/-- A change of the layout that leaves the hidden-API section alone is not seen. -/
theorem oblivious_changeLayout {f : Layout → Layout}
    (hf : ∀ l, (f l).hiddenapi.size = l.hiddenapi.size) : (changeLayout f).Oblivious :=
  fun _ _ _ _ h => ⟨rfl, h.graph, h.known, ((hf _).trans h.hiddenapiSize).trans (hf _).symm⟩

theorem Oblivious.ite {c : Prop} [Decidable c] {b b' : Build α} (h : b.Oblivious)
    (h' : b'.Oblivious) : Oblivious (if c then b else b') := by
  split
  · exact h
  · exact h'

theorem oblivious_forM {f : α → Build PUnit} (hf : ∀ x, (f x).Oblivious) (xs : List α) :
    (xs.forM f).Oblivious := by
  induction xs with
  | nil => exact oblivious_pure
  | cons x rest ih => exact (hf x).bind fun _ => ih

theorem oblivious_forM_array {f : α → Build PUnit} (hf : ∀ x, (f x).Oblivious) (xs : Array α) :
    (xs.forM f).Oblivious := by
  have hlist : xs.forM f = xs.toList.forM f := by
    cases xs
    simp
  rw [hlist]
  exact oblivious_forM hf _

/-! ## Entering what was read -/

theorem size_captureOffset {s : Section} (l : Layout) (keep : Bool) (r : Ref s) (o : UInt32) :
    (l.captureOffset keep r o).hiddenapi.size = l.hiddenapi.size := by
  unfold Layout.captureOffset
  split <;> rfl

theorem oblivious_known? (s : Section) (key : ItemKey) : (known? s key).Oblivious :=
  fun _ _ _ _ h => ⟨by rw [h.known], h⟩

theorem oblivious_enter (s : Section) (key : ItemKey) (stop : Nat) (x : s.Content) :
    (enter s key stop x).Oblivious := by
  unfold enter
  refine (oblivious_ofExcept _).bind fun size source keep a a' h => ?_
  unfold Assembly.enter
  rw [← h.graph, ← h.known]
  dsimp only [Graph.takeEntities]
  cases (a.known.get s).register (a.graph.entities s) key key.offset x with
  | error e => exact rfl
  | ok out =>
    refine ⟨rfl, rfl, rfl, ?_⟩
    rw [size_captureOffset, size_captureOffset]
    exact h.hiddenapiSize

theorem oblivious_enterRow (s : Section) (table index : UInt32) (x : s.Content) :
    (enterRow s table index x).Oblivious := by
  intro source keep a a' h
  unfold enterRow Assembly.enterRow
  rw [← h.graph]
  dsimp only [Graph.takeEntities]
  cases (a.graph.entities s).addAt index x with
  | error e => exact rfl
  | ok out =>
    refine ⟨rfl, rfl, h.known, ?_⟩
    rw [size_captureOffset, size_captureOffset]
    exact h.hiddenapiSize

theorem oblivious_resolve (s : Section) (index : UInt32) : (resolve s index).Oblivious :=
  oblivious_get_bind (fun _ => oblivious_ofExcept _) fun _ _ h => by rw [h.graph]

theorem oblivious_resolveOrNone (s : Section) (index : UInt32) :
    (resolveOrNone s index).Oblivious :=
  oblivious_get_bind (fun _ => oblivious_ofExcept _) fun _ _ h => by rw [h.graph]

theorem oblivious_itemOf {s : Section} (key : ItemKey) (p : Nat) {read : Reading s.Content}
    (hread : Oblivious (read.run p)) : (itemOf s key p read).Oblivious := by
  unfold itemOf
  refine (oblivious_known? s key).bind fun r => ?_
  cases r with
  | some r => exact oblivious_pure
  | none => exact hread.bind fun _ => oblivious_enter s key _ _

end Build

/-! ## Steps that read -/

namespace Reading

variable {α β : Type}

/-- The step comes to the same from every position. -/
def Oblivious (r : Reading α) : Prop :=
  ∀ p, Build.Oblivious (r.run p)

theorem oblivious_pure {x : α} : Oblivious (pure x) :=
  fun _ => Build.oblivious_pure

theorem Oblivious.bind {r : Reading β} {f : β → Reading α} (hr : r.Oblivious)
    (hf : ∀ x, (f x).Oblivious) : (r >>= f).Oblivious := by
  intro p
  rw [StateT.run_bind]
  exact (hr p).bind fun out => hf out.1 out.2

theorem oblivious_decodeWith (d : Graph → Decoder α) : (decodeWith d).Oblivious := by
  intro p source keep a a' h
  change Build.Agree (Build.ofExcept (d a.graph source.data p) source a)
    (Build.ofExcept (d a'.graph source.data p) (source.keeping keep) a')
  rw [← h.graph]
  exact Build.oblivious_ofExcept _ source keep a a' h

theorem oblivious_decode (d : Decoder α) : (decode d).Oblivious :=
  oblivious_decodeWith fun _ => d

theorem Oblivious.ite {c : Prop} [Decidable c] {r r' : Reading α} (h : r.Oblivious)
    (h' : r'.Oblivious) : Oblivious (if c then r else r') := by
  split
  · exact h
  · exact h'

theorem oblivious_gather {r : Reading α} (hr : r.Oblivious) (n : Nat) : (gather n r).Oblivious := by
  suffices h : ∀ n done, (gatherFrom done n r).Oblivious from h n #[]
  intro n
  induction n with
  | zero => exact fun _ => oblivious_pure
  | succ n ih => exact fun done => hr.bind fun x => ih (done.push x)

end Reading

namespace Build

open Reading (oblivious_decode oblivious_decodeWith)

theorem Oblivious.lift {α : Type} {b : Build α} (hb : b.Oblivious) :
    Reading.Oblivious (liftM b) := by
  intro p
  change Oblivious (b >>= fun x => pure (x, p))
  exact hb.bind fun _ => oblivious_pure

theorem oblivious_itemAt {s : Section} {read : Reading s.Content} (hread : read.Oblivious)
    (o : UInt32) : (itemAt s o read).Oblivious :=
  oblivious_itemOf _ _ (hread _)

theorem oblivious_itemAt? {s : Section} {read : Reading s.Content} (hread : read.Oblivious)
    (o : UInt32) : (itemAt? s o read).Oblivious :=
  .ite oblivious_pure ((oblivious_itemAt hread o).bind fun _ => oblivious_pure)

/-! ## Data items -/

theorem oblivious_stringData (o : UInt32) : (stringData o).Oblivious :=
  oblivious_itemAt (oblivious_decode _) o

theorem oblivious_typeList? (o : UInt32) : (typeList? o).Oblivious :=
  oblivious_itemAt? (oblivious_decodeWith _) o

theorem oblivious_encodedArray? (o : UInt32) : (encodedArray? o).Oblivious :=
  oblivious_itemAt? ((oblivious_decodeWith _).bind fun _ => Reading.oblivious_pure) o

theorem oblivious_annotationItem (o : UInt32) : (annotationItem o).Oblivious := by
  refine oblivious_itemAt ((oblivious_decode _).bind fun code => ?_) o
  cases Visibility.ofCode? code with
  | none => exact .lift (oblivious_refuse _)
  | some visibility => exact (oblivious_decodeWith _).bind fun _ => Reading.oblivious_pure

theorem oblivious_annotationSet? (o : UInt32) : (annotationSet? o).Oblivious := by
  refine oblivious_itemAt? ((oblivious_decode _).bind fun count =>
    (Reading.oblivious_gather ?_ _).bind fun _ => Reading.oblivious_pure) o
  exact (oblivious_decode _).bind fun itemOffset => .ite Reading.oblivious_pure
    ((oblivious_annotationItem itemOffset).lift.bind fun _ => Reading.oblivious_pure)

theorem oblivious_annotationSetRefList? (o : UInt32) : (annotationSetRefList? o).Oblivious := by
  refine oblivious_itemAt? ((oblivious_decode _).bind fun count =>
    (Reading.oblivious_gather ?_ _).bind fun _ => Reading.oblivious_pure) o
  exact (oblivious_decode _).bind fun setOffset => (oblivious_annotationSet? setOffset).lift

theorem oblivious_memberAnnotations (member : Section) {notes : Section}
    {notesAt? : UInt32 → Build (Option (Ref notes))} (hnotes : ∀ o, (notesAt? o).Oblivious) :
    (memberAnnotations member notes notesAt?).Oblivious :=
  (oblivious_decode _).bind fun _ => (oblivious_decode _).bind fun o =>
    (oblivious_resolve member _).lift.bind fun _ => (hnotes o).lift.bind fun _ =>
    Reading.oblivious_pure

theorem oblivious_annotationsDirectory? (o : UInt32) : (annotationsDirectory? o).Oblivious :=
  oblivious_itemAt? ((oblivious_decode _).bind fun _ => (oblivious_decode _).bind fun _ =>
    (oblivious_decode _).bind fun _ => (oblivious_decode _).bind fun _ =>
    (oblivious_annotationSet? _).lift.bind fun _ =>
    (Reading.oblivious_gather (oblivious_memberAnnotations _ oblivious_annotationSet?) _).bind
      fun _ =>
    (Reading.oblivious_gather (oblivious_memberAnnotations _ oblivious_annotationSet?) _).bind
      fun _ =>
    (Reading.oblivious_gather (oblivious_memberAnnotations _ oblivious_annotationSetRefList?) _).bind
      fun _ => Reading.oblivious_pure) o

theorem oblivious_debugInfo? (o : UInt32) : (debugInfo? o).Oblivious :=
  oblivious_itemAt? (oblivious_decode _) o

theorem oblivious_codeItem? (o : UInt32) : (codeItem? o).Oblivious := by
  unfold codeItem?
  refine .ite oblivious_pure ((oblivious_decode _ _).bind fun out => ?_)
  refine (oblivious_itemOf _ _ ?_).bind fun _ => oblivious_pure
  exact ((oblivious_debugInfo? _).lift.bind fun _ => oblivious_decodeWith _) _

theorem oblivious_methodsFrom (previous : UInt32) (methods : Array MethodItem) (count : Nat) :
    (methodsFrom previous methods count).Oblivious := by
  induction count generalizing previous methods with
  | zero => exact Reading.oblivious_pure
  | succ count ih =>
    exact (oblivious_decode _).bind fun _ => (oblivious_ofExcept _).lift.bind fun _ =>
      (oblivious_decode _).bind fun _ => (oblivious_decode _).bind fun _ =>
      (oblivious_resolve _ _).lift.bind fun _ => (oblivious_codeItem? _).lift.bind fun _ => ih _ _

theorem oblivious_classMembers : classMembers.Oblivious :=
  (oblivious_decode _).bind fun _ => (oblivious_decode _).bind fun _ =>
    (oblivious_decode _).bind fun _ => (oblivious_decode _).bind fun _ =>
    (oblivious_decodeWith _).bind fun _ => (oblivious_decodeWith _).bind fun _ =>
    (oblivious_methodsFrom _ _ _).bind fun _ => (oblivious_methodsFrom _ _ _).bind fun _ =>
    Reading.oblivious_pure

theorem oblivious_classData? (o : UInt32) : (classData? o).Oblivious := by
  unfold classData?
  refine .ite oblivious_pure ((oblivious_known? _ _).bind fun r => ?_)
  cases r with
  | some r => exact oblivious_pure
  | none =>
    exact (oblivious_classMembers _).bind fun _ => (oblivious_enter _ _ _ _).bind fun _ =>
      (oblivious_changeGraph _).bind fun _ => oblivious_pure

/-! ## Tables -/

section Rows

variable {s : Section} {α : Type} [Row α] {content : UInt32 → α → Build s.Content}
  {added : Ref s → s.Content → Build Unit} (hcontent : ∀ index row, (content index row).Oblivious)
  (hadded : ∀ r x, (added r x).Oblivious)
include hcontent hadded

theorem oblivious_table (range : SectionRange) : (table s α range content added).Oblivious := by
  unfold table
  refine Oblivious.bind (oblivious_changeLayout ?_) fun _ => ?_
  · exact fun _ => rfl
  generalize (0 : Nat) = index
  induction range.size.toNat generalizing index with
  | zero => exact oblivious_pure
  | succ count ih =>
    refine Oblivious.bind ?_ fun _ => ih (index + 1)
    exact oblivious_read_bind (fun source => (oblivious_ofExcept _).bind fun row =>
      (hcontent _ row).bind fun x => (oblivious_enterRow _ _ _ x).bind fun r => hadded r x)
      fun _ _ => rfl

end Rows

theorem oblivious_classDef (row : ClassDefRow) : (classDef row).Oblivious :=
  (oblivious_resolve _ _).bind fun _ => (oblivious_resolveOrNone _ _).bind fun _ =>
    (oblivious_typeList? _).bind fun _ => (oblivious_resolveOrNone _ _).bind fun _ =>
    (oblivious_annotationsDirectory? _).bind fun _ => (oblivious_encodedArray? _).bind fun _ =>
    (oblivious_classData? _).bind fun _ => oblivious_pure

theorem oblivious_claimMembers (r : Ref .classDef) (x : ClassDef) :
    (claimMembers r x).Oblivious := by
  unfold claimMembers
  split
  · exact oblivious_changeGraph _
  · exact oblivious_pure

theorem oblivious_handleTarget (kind : MethodHandleKind) (index : UInt16) :
    (handleTarget kind index).Oblivious :=
  .ite ((oblivious_resolve _ _).bind fun _ => oblivious_pure)
    ((oblivious_resolve _ _).bind fun _ => oblivious_pure)

theorem oblivious_mapSection (kind : MapItemType) {take : SectionRange → Build Unit}
    (htake : ∀ range, (take range).Oblivious) : (mapSection kind take).Oblivious := by
  refine oblivious_read_bind (fun source => ?_) fun _ _ => rfl
  cases source.map.find? kind with
  | some entry => exact htake _
  | none => exact oblivious_pure

/-- Of the hidden-API section the size is recorded even where its offset is not. -/
theorem oblivious_hiddenapi (range : SectionRange) : (hiddenapi range).Oblivious := by
  intro source keep a a' h
  have hread (source : Source) (a : Assembly) : (read : Build Source) source a = .ok (source, a) := rfl
  have hget (source : Source) (a : Assembly) : (get : Build Assembly) source a = .ok (a, a) := rfl
  unfold hiddenapi
  have hdata : (source.keeping keep).data = source.data := rfl
  simp only [run_bind, hread, hget, hdata, ← h.graph]
  cases (HiddenApi.decode (a.graph.classDefs.items.map a.graph.memberCount)).runAt source.data
    range.offset.toNat with
  | ok out =>
    have hgraph := congrArg (fun g : Graph => { g with hiddenapi := some out.1.2 }) h.graph
    exact ⟨rfl, hgraph, h.known, rfl⟩
  | error e => exact rfl

theorem oblivious_checkEntry (entry : MapEntry) : (checkEntry entry).Oblivious := by
  unfold checkEntry
  cases entry.kind? with
  | none => exact oblivious_pure
  | some kind =>
    refine oblivious_read_bind (fun source => oblivious_get_bind (fun a => ?_) fun a a' h => ?_)
      fun _ _ => rfl
    · cases expectedRange? source.header a.graph entry kind with
      | some expected => exact .ite (oblivious_refuse _) oblivious_pure
      | none =>
        cases dataSectionOf? kind with
        | some s => exact oblivious_changeLayout fun _ => rfl
        | none => exact oblivious_pure
    · rw [h.graph]

theorem oblivious_sortSection (s : Section) : (sortSection s).Oblivious := by
  intro source keep a a' h
  refine ⟨rfl, ?_, h.known, h.hiddenapiSize⟩
  dsimp only
  rw [h.graph, h.known]

theorem oblivious_linkData (range : SectionRange) : (linkData range).Oblivious := by
  unfold linkData
  refine .ite oblivious_pure (oblivious_read_bind (fun source => ?_) fun _ _ => rfl)
  cases source.data.slice? range.offset.toNat range.size.toNat with
  | some bytes => exact oblivious_changeGraph _
  | none => exact oblivious_ofExcept _

theorem oblivious_all : all.Oblivious := by
  have hadded {s : Section} (r : Ref s) (x : s.Content) : Oblivious (pure ()) := oblivious_pure
  have hstrings (range : SectionRange) : (stringIds range).Oblivious :=
    oblivious_table (fun _ _ => (oblivious_stringData _).bind fun _ => oblivious_pure) hadded _
  have htypes (range : SectionRange) : (typeIds range).Oblivious :=
    oblivious_table (fun _ _ => (oblivious_resolve _ _).bind fun _ => oblivious_pure) hadded _
  have hprotos (range : SectionRange) : (protoIds range).Oblivious :=
    oblivious_table (fun _ _ => (oblivious_resolve _ _).bind fun _ =>
      (oblivious_resolve _ _).bind fun _ => (oblivious_typeList? _).bind fun _ => oblivious_pure)
      hadded _
  have hfields (range : SectionRange) : (fieldIds range).Oblivious :=
    oblivious_table (fun _ _ => (oblivious_resolve _ _).bind fun _ =>
      (oblivious_resolve _ _).bind fun _ => (oblivious_resolve _ _).bind fun _ => oblivious_pure)
      hadded _
  have hmethods (range : SectionRange) : (methodIds range).Oblivious :=
    oblivious_table (fun _ _ => (oblivious_resolve _ _).bind fun _ =>
      (oblivious_resolve _ _).bind fun _ => (oblivious_resolve _ _).bind fun _ => oblivious_pure)
      hadded _
  have hhandles (range : SectionRange) : (methodHandles range).Oblivious := by
    refine oblivious_table (fun index row => ?_) hadded _
    cases MethodHandleKind.ofCode? row.kind with
    | none => exact oblivious_refuse _
    | some kind => exact (oblivious_handleTarget _ _).bind fun _ => oblivious_pure
  have hsites (range : SectionRange) : (callSiteIds range).Oblivious := by
    refine oblivious_table (fun index row => (oblivious_encodedArray? _).bind fun array => ?_)
      hadded _
    cases array with
    | none => exact oblivious_refuse _
    | some array => exact oblivious_pure
  unfold all
  refine oblivious_read_bind (fun source => ?_) fun _ _ => rfl
  refine (hstrings _).bind fun _ => (htypes _).bind fun _ => (hprotos _).bind fun _ =>
    (hfields _).bind fun _ => (hmethods _).bind fun _ =>
    (oblivious_table (fun _ => oblivious_classDef) oblivious_claimMembers _).bind fun _ =>
    (oblivious_mapSection _ hhandles).bind fun _ => (oblivious_mapSection _ hsites).bind fun _ => ?_
  have hrest : Oblivious (do
      source.map.entries.forM checkEntry
      Section.dataSections.forM sortSection
      linkData source.header.link) :=
    (oblivious_forM_array oblivious_checkEntry _).bind fun _ =>
      (oblivious_forM oblivious_sortSection _).bind fun _ => oblivious_linkData _
  exact .ite ((oblivious_mapSection _ oblivious_hiddenapi).bind fun _ => hrest) hrest

end Build

namespace Dex

/-- Whether offsets are kept or not, an image is refused with the same error or has the same
contents. The size of its hidden-API section is recorded in either case. -/
theorem ofImage_keepOffsets (image : Image) (loadHiddenapi keep keep' : Bool) :
    (∃ e, ofImage ⟨keep, loadHiddenapi⟩ image = .error e ∧
      ofImage ⟨keep', loadHiddenapi⟩ image = .error e) ∨
    ∃ d d', ofImage ⟨keep, loadHiddenapi⟩ image = .ok d ∧
      ofImage ⟨keep', loadHiddenapi⟩ image = .ok d' ∧ d.graph = d'.graph ∧
      d.layout.hiddenapi.size = d'.layout.hiddenapi.size := by
  rw [ofImage_eq, ofImage_eq]
  cases MapList.read image.data image.header.mapOffset with
  | error e => exact .inl ⟨e, rfl, rfl⟩
  | ok map =>
    have hall := Build.oblivious_all ⟨image.data, image.header, map, ⟨keep, loadHiddenapi⟩⟩ keep'
      (.start image.header) _ ⟨rfl, rfl, rfl⟩
    change Build.Agree _ (Build.all ⟨image.data, image.header, map, ⟨keep', loadHiddenapi⟩⟩ _) at hall
    dsimp only
    cases hrun : Build.all ⟨image.data, image.header, map, ⟨keep, loadHiddenapi⟩⟩
        (Assembly.start image.header) with
    | error e =>
      cases hrun' : Build.all ⟨image.data, image.header, map, ⟨keep', loadHiddenapi⟩⟩
          (Assembly.start image.header) with
      | error e' =>
        rw [hrun, hrun'] at hall
        exact .inl ⟨e, rfl, congrArg Except.error hall.symm⟩
      | ok out' =>
        rw [hrun, hrun'] at hall
        exact False.elim hall
    | ok out =>
      cases hrun' : Build.all ⟨image.data, image.header, map, ⟨keep', loadHiddenapi⟩⟩
          (Assembly.start image.header) with
      | error e' =>
        rw [hrun, hrun'] at hall
        exact False.elim hall
      | ok out' =>
        rw [hrun, hrun'] at hall
        exact .inr ⟨_, _, rfl, rfl, hall.2.graph, hall.2.hiddenapiSize⟩

end Dex

end DexGraph
