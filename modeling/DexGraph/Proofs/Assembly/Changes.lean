import DexGraph.Proofs.Assembly.SortedOrder
import DexGraph.Proofs.Assembly.Tables

/-!
# Changes while a graph is assembled

However an image is read, what it is read into changes in few ways: a data item is entered, the
members of a class are entered and registered, a row is entered, a class is entered and claims its
members, or nothing changes but what lies beside the entities. `Assembly.Change` is one such change
and `Assembly.Becomes` a chain of them. Every step of assembling is gradual, which is to say that it
consists of such changes (`Build.gradual_all`), so that a property of whole assemblies need only be
shown to survive each of the changes (`Assembly.Becomes.preserves`).
-/

namespace DexGraph

/-- The graph in which the members of a class are claimed by it, unless an earlier one has them
too. -/
def Graph.claim (g : Graph) (d : Ref .classDef) (x : ClassDef) : Graph :=
  match x.classData with
  | some r => g.modify r fun members => members.belongTo d
  | none => g

namespace Assembly

variable {source : Source} {a a' : Assembly}

/-- A change that is made while an image is read. -/
inductive Change (source : Source) : Assembly → Assembly → Prop
  | item {a a' : Assembly} {s : Section} {key : ItemKey} {size : UInt32} {x : s.Content} {r : Ref s}
      (hs : s.rowSize? = none) (hmembers : s ≠ .classData)
      (h : a.enter source.options.keepOffsets s key size x = .ok (r, a')) : Change source a a'
  | members {a a' : Assembly} {key : ItemKey} {size : UInt32} {x : ClassData} {r : Ref .classData}
      (hx : x.classDef = none)
      (h : a.enter source.options.keepOffsets .classData key size x = .ok (r, a')) :
      Change source a { a' with
        graph := Build.registerMethods r (a'.graph.modify r fun c => c.attach r) }
  | row {a a' : Assembly} {s : Section} {range : SectionRange} {index : UInt32} {x : s.Content}
      {r : Ref s} (hs : s ≠ .classDef) (hrange : source.range? s = some range)
      (h : a.enterRow source.options.keepOffsets s range.offset index x = .ok (r, a')) :
      Change source a a'
  | classRow {a a' : Assembly} {index : UInt32} {x : ClassDef} {r : Ref .classDef}
      (hx : ∀ c, x.classData = some c → ∃ key, (a.known.get .classData).get? key = some c)
      (h : a.enterRow source.options.keepOffsets .classDef source.header.classDefs.offset index x =
        .ok (r, a')) :
      Change source a { a' with graph := a'.graph.claim r x }
  | aside {a a' : Assembly}
      (hcoherent : (∀ s, (a.graph.entities s).Coherent) → ∀ s, (a'.graph.entities s).Coherent)
      (hitems : ∀ s, (a'.graph.entities s).items = (a.graph.entities s).items)
      (hmethods : a'.graph.methodItems = a.graph.methodItems) (hknown : a'.known = a.known)
      (hplace : ∀ (s : Section) (r : Ref s), a'.layout.place r = a.layout.place r)
      (hflags : source.options.keepOffsets = false → a.layout.hiddenapi.offset = none →
        a'.layout.hiddenapi.offset = none) : Change source a a'

/-- The second assembly comes of the first one by changes. -/
def Becomes (source : Source) : Assembly → Assembly → Prop :=
  Relation.ReflTransGen (Change source)

theorem Becomes.refl : a.Becomes source a :=
  Relation.ReflTransGen.refl

theorem Becomes.trans {a'' : Assembly} (h : a.Becomes source a') (h' : a'.Becomes source a'') :
    a.Becomes source a'' :=
  Relation.ReflTransGen.trans h h'

theorem Change.becomes (h : Change source a a') : a.Becomes source a' :=
  Relation.ReflTransGen.single h

end Assembly

/-- The second assembly is the first one with its data items in the order of their keys. -/
structure Assembly.Sorted (a a' : Assembly) : Prop where
  known : a'.known = a.known
  layout : a'.layout = a.layout
  entities : ∀ s, a'.graph.entities s = if s ∈ Section.dataSections then
    (a.known.get s).sort (a.graph.entities s) else a.graph.entities s

/-! ## What no change takes away -/

namespace Graph

theorem count_registerMethods (r : Ref .classData) (g : Graph) (s : Section) :
    (Build.registerMethods r g).count s = g.count s := by
  unfold count
  rw [entities_registerMethods]

variable {g : Graph} {d : Ref .classDef} {x : ClassDef}

theorem count_claim (g : Graph) (d : Ref .classDef) (x : ClassDef) (s : Section) :
    (g.claim d x).count s = g.count s := by
  unfold claim
  cases x.classData with
  | none => rfl
  | some r => exact count_modify g r _ s

theorem methodItems_claim (g : Graph) (d : Ref .classDef) (x : ClassDef) :
    (g.claim d x).methodItems = g.methodItems := by
  unfold claim
  cases x.classData with
  | none => rfl
  | some r => exact methodItems_modify g r _

theorem get?_claim (g : Graph) (d : Ref .classDef) (x : ClassDef) (r : Ref .classData) :
    (g.claim d x).get? r =
      if x.classData = some r then (g.get? r).map (ClassData.belongTo · d) else g.get? r := by
  unfold claim
  cases hc : x.classData with
  | none => rfl
  | some r' =>
    dsimp only
    rw [get?_modify_self]
    simp only [Option.some.injEq, eq_comm]

/-- Only members are claimed. -/
theorem get?_claim_of_ne (g : Graph) (d : Ref .classDef) (x : ClassDef) {s : Section}
    (hs : s ≠ .classData) (r : Ref s) : (g.claim d x).get? r = g.get? r := by
  unfold claim
  cases x.classData with
  | none => rfl
  | some r' => exact get?_modify_of_ne g r' _ hs r

theorem coherent_claim (hg : ∀ s, (g.entities s).Coherent) (s : Section) :
    ((g.claim d x).entities s).Coherent := by
  unfold claim
  cases x.classData with
  | none => exact hg s
  | some r => exact coherent_modify hg r _ s

end Graph

namespace Assembly

variable {source : Source} {a a' : Assembly}

theorem Change.count_le (h : Change source a a') (s : Section) :
    a.graph.count s ≤ a'.graph.count s := by
  cases h with
  | item _ _ h => exact (of_enter h).2.1.narrower s
  | members _ h =>
    rw [Graph.count_registerMethods, Graph.count_modify]
    exact (of_enter h).2.1.narrower s
  | row _ _ h => exact (of_enterRow h).2.1.narrower s
  | classRow _ h =>
    rw [Graph.count_claim]
    exact (of_enterRow h).2.1.narrower s
  | aside _ hitems =>
    unfold Graph.count Collection.size
    rw [hitems]

theorem Change.coherent (h : Change source a a') (ha : ∀ s, (a.graph.entities s).Coherent)
    (hsize : ∀ s, a'.graph.count s < 2 ^ 32) (s : Section) : (a'.graph.entities s).Coherent := by
  have hgrown {a₁ : Assembly} {t : Section} {x : t.Content} {r : Ref t} (hg : a.Grown a₁ t x r)
      (hcount : a₁.graph.count t = a'.graph.count t) (u : Section) :
      (a₁.graph.entities u).Coherent := by
    refine hg.coherent ha ?_ u
    have hnext : a₁.graph.count t = a.graph.count t + 1 := by
      unfold Graph.count
      rw [hg.entities_self, Collection.size_add]
    rw [← hnext, hcount]
    exact hsize t
  cases h with
  | item _ _ h => exact hgrown (of_enter h).2.1 rfl s
  | members _ h =>
    rw [Graph.entities_registerMethods]
    refine Graph.coherent_modify (hgrown (of_enter h).2.1 ?_) _ _ s
    rw [Graph.count_registerMethods, Graph.count_modify]
  | row _ _ h => exact hgrown (of_enterRow h).2.1 rfl s
  | classRow _ h =>
    exact Graph.coherent_claim (hgrown (of_enterRow h).2.1 (Graph.count_claim _ _ _ _).symm) s
  | aside hcoherent => exact hcoherent ha s

theorem Becomes.count_le (h : a.Becomes source a') (s : Section) :
    a.graph.count s ≤ a'.graph.count s := by
  induction h with
  | refl => exact Nat.le_refl _
  | tail _ hstep ih => exact ih.trans (hstep.count_le s)

theorem Becomes.coherent (h : a.Becomes source a') (ha : ∀ s, (a.graph.entities s).Coherent)
    (hsize : ∀ s, a'.graph.count s < 2 ^ 32) : ∀ s, (a'.graph.entities s).Coherent := by
  induction h with
  | refl => exact ha
  | tail _ hstep ih =>
    exact hstep.coherent (ih fun t => (hstep.count_le t).trans_lt (hsize t)) hsize

/-- What every change of a coherent assembly keeps, an assembly has as long as no section comes to
have more entities than can be numbered. -/
theorem Becomes.preserves {I : Assembly → Prop}
    (hstep : ∀ a a', Change source a a' → (∀ s, (a.graph.entities s).Coherent) → I a → I a')
    (h : a.Becomes source a') (ha : ∀ s, (a.graph.entities s).Coherent)
    (hsize : ∀ s, a'.graph.count s < 2 ^ 32) (hI : I a) : I a' := by
  induction h with
  | refl => exact hI
  | tail hpath hlast ih =>
    have hbefore (s : Section) := (hlast.count_le s).trans_lt (hsize s)
    exact hstep _ _ hlast (Becomes.coherent hpath ha hbefore) (ih hbefore)

end Assembly

/-! ## Gradual steps -/

namespace Build

variable {α β : Type} {source : Source} {a : Assembly}

/-- The step consists of changes. -/
def Gradual (source : Source) (b : Build α) : Prop :=
  ∀ a, Establishes source (fun _ => True) b (fun _ a' => a.Becomes source a') a

theorem gradual_pure {x : α} : Gradual source (pure x) :=
  fun _ => .refl

theorem Gradual.bind {b : Build β} {f : β → Build α} (hb : Gradual source b)
    (hf : ∀ x, Gradual source (f x)) : Gradual source (b >>= f) :=
  fun a => (hb a).bind fun x a₁ h => (hf x a₁).mono fun _ _ h' => h.trans h'

/-- What a gradual step establishes comes by changes. -/
theorem Gradual.and {b : Build α} {Q : α → Assembly → Prop} (hb : Gradual source b)
    (h : Establishes source (fun _ => True) b Q a) :
    Establishes source (fun _ => True) b (fun x a' => a.Becomes source a' ∧ Q x a') a :=
  ((hb a).and h).mono_error fun _ _ => trivial

/-- A gradual step in front changes an assembly that has come by changes itself. -/
theorem Gradual.bind_of_becomes {b : Build β} {f : β → Build α} {Q : α → Assembly → Prop}
    {a' : Assembly} (hb : Gradual source b) (ha : a.Becomes source a')
    (hf : ∀ x a', a.Becomes source a' → Establishes source (fun _ => True) (f x) Q a') :
    Establishes source (fun _ => True) (b >>= f) Q a' :=
  (hb a').bind fun x a'' h => hf x a'' (ha.trans h)

theorem gradual_ofExcept (x : Except Error α) : Gradual source (ofExcept x) :=
  fun _ => establishes_ofExcept.mpr ⟨fun _ _ => .refl, fun _ _ => trivial⟩

theorem gradual_get_bind {f : Assembly → Build α} (hf : ∀ a, Gradual source (f a)) :
    Gradual source (get >>= f) := by
  intro a
  rw [establishes_bind, establishes_get]
  exact hf a a

theorem gradual_read_bind {f : Source → Build α} (hf : Gradual source (f source)) :
    Gradual source (read >>= f) := by
  intro a
  rw [establishes_bind, establishes_read]
  exact hf a

theorem Gradual.ite {c : Prop} [Decidable c] {b b' : Build α} (h : Gradual source b)
    (h' : Gradual source b') : Gradual source (if c then b else b') := by
  split
  · exact h
  · exact h'

theorem gradual_forM {γ : Type} {f : γ → Build PUnit} {xs : List γ}
    (hf : ∀ x, Gradual source (f x)) : Gradual source (xs.forM f) := fun _ =>
  establishes_forM (fun x _ a' h => (hf x a').mono fun _ _ h' => h.trans h') .refl

theorem gradual_forM_array {γ : Type} {f : γ → Build PUnit} {xs : Array γ}
    (hf : ∀ x, Gradual source (f x)) : Gradual source (xs.forM f) := fun _ =>
  establishes_forM_array (fun x _ a' h => (hf x a').mono fun _ _ h' => h.trans h') .refl

theorem gradual_changeLayout {f : Layout → Layout}
    (hf : ∀ (l : Layout) (s : Section) (r : Ref s), (f l).place r = l.place r)
    (hflags : ∀ l : Layout, source.options.keepOffsets = false → l.hiddenapi.offset = none →
      (f l).hiddenapi.offset = none) : Gradual source (changeLayout f) := by
  intro a
  rw [establishes_changeLayout]
  refine Assembly.Change.becomes ?_
  exact .aside id (fun _ => rfl) rfl rfl (hf a.layout) (hflags a.layout)

theorem gradual_setSectionOffset (s : Section) (o : Option UInt32) :
    Gradual source (changeLayout fun l => l.setSectionOffset s o) :=
  gradual_changeLayout (fun _ _ _ => Layout.place_setSectionOffset ..) fun _ _ h => h

theorem gradual_changeGraph {f : Graph → Graph}
    (hentities : ∀ g s, (f g).entities s = g.entities s)
    (hmethods : ∀ g, (f g).methodItems = g.methodItems) : Gradual source (changeGraph f) := by
  intro a
  rw [establishes_changeGraph]
  refine Assembly.Change.becomes (.aside (fun h s => ?_) (fun s => ?_) (hmethods a.graph) rfl
    (fun _ _ => rfl) fun _ h => h)
  · rw [hentities]
    exact h s
  · rw [hentities]

theorem gradual_resolve (s : Section) (index : UInt32) : Gradual source (resolve s index) :=
  gradual_get_bind fun _ => gradual_ofExcept _

theorem gradual_resolveOrNone (s : Section) (index : UInt32) :
    Gradual source (resolveOrNone s index) :=
  gradual_get_bind fun _ => gradual_ofExcept _

/-- Whatever is required of the outcome of entering an item is to be shown of the one case in which
it is entered. -/
theorem establishes_enter_of_ok {s : Section} {key : ItemKey} {stop : Nat} {x : s.Content}
    {Q : Ref s → Assembly → Prop} (hQ : ∀ size r a',
      a.enter source.options.keepOffsets s key size x = .ok (r, a') → Q r a') :
    Establishes source (fun _ => True) (enter s key stop x) Q a := by
  unfold enter
  rw [establishes_bind, establishes_ofExcept]
  refine ⟨fun size _ => ?_, fun _ _ => trivial⟩
  unfold Establishes
  split
  · exact hQ size _ _ ‹_›
  · trivial

theorem gradual_itemOf {s : Section} (hs : s.rowSize? = none) (hmembers : s ≠ .classData)
    {key : ItemKey} {p : Nat} {read : Reading s.Content} (hread : Gradual source (read.run p)) :
    Gradual source (itemOf s key p read) := by
  intro a
  unfold itemOf
  rw [establishes_bind, establishes_known?]
  cases (a.known.get s).get? key with
  | some r => exact .refl
  | none =>
    refine (hread.bind fun out => ?_) a
    exact fun a' => establishes_enter_of_ok fun _ _ _ h =>
      (Assembly.Change.item hs hmembers h).becomes

end Build

namespace Reading

variable {α β : Type} {source : Source}

/-- The step consists of changes, from whatever position it reads. -/
def Gradual (source : Source) (m : Reading α) : Prop :=
  ∀ p, Build.Gradual source (m.run p)

theorem gradual_pure {x : α} : Gradual source (pure x) :=
  fun _ => Build.gradual_pure

theorem Gradual.bind {m : Reading β} {f : β → Reading α} (hm : Gradual source m)
    (hf : ∀ x, Gradual source (f x)) : Gradual source (m >>= f) := by
  intro p
  rw [StateT.run_bind]
  exact (hm p).bind fun out => hf out.1 out.2

theorem gradual_decodeWith (d : Graph → Decoder α) : Gradual source (decodeWith d) :=
  fun _ _ => Build.establishes_run_decodeWith.mpr ⟨fun _ _ _ => .refl, fun _ _ => trivial⟩

theorem gradual_decode (d : Decoder α) : Gradual source (decode d) :=
  gradual_decodeWith fun _ => d

theorem gradual_lift {b : Build α} (hb : Build.Gradual source b) :
    Gradual source (liftM b) :=
  fun _ _ => Build.establishes_run_lift.mpr (hb _)

theorem Gradual.ite {c : Prop} [Decidable c] {m m' : Reading α} (h : Gradual source m)
    (h' : Gradual source m') : Gradual source (if c then m else m') := by
  split
  · exact h
  · exact h'

theorem gradual_gather {m : Reading α} (hm : Gradual source m) (n : Nat) :
    Gradual source (gather n m) := by
  suffices h : ∀ n done, Gradual source (gatherFrom done n m) from h n #[]
  intro n
  induction n with
  | zero => exact fun _ => gradual_pure
  | succ n ih => exact fun done => hm.bind fun x => ih (done.push x)

end Reading

namespace Build

open Reading (gradual_decode gradual_decodeWith gradual_lift)

variable {source : Source}

/-! ### Data items -/

theorem gradual_itemAt {s : Section} (hs : s.rowSize? = none) (hmembers : s ≠ .classData)
    {read : Reading s.Content} (hread : read.Gradual source) (o : UInt32) :
    Gradual source (itemAt s o read) :=
  gradual_itemOf hs hmembers (hread _)

theorem gradual_itemAt? {s : Section} (hs : s.rowSize? = none) (hmembers : s ≠ .classData)
    {read : Reading s.Content} (hread : read.Gradual source) (o : UInt32) :
    Gradual source (itemAt? s o read) :=
  .ite gradual_pure ((gradual_itemAt hs hmembers hread o).bind fun _ => gradual_pure)

theorem gradual_stringData (o : UInt32) : Gradual source (stringData o) :=
  gradual_itemAt rfl (by decide) (gradual_decode _) o

theorem gradual_typeList? (o : UInt32) : Gradual source (typeList? o) :=
  gradual_itemAt? rfl (by decide) (gradual_decodeWith _) o

theorem gradual_encodedArray? (o : UInt32) : Gradual source (encodedArray? o) :=
  gradual_itemAt? rfl (by decide) ((gradual_decodeWith _).bind fun _ => Reading.gradual_pure) o

theorem gradual_annotationItem (o : UInt32) : Gradual source (annotationItem o) := by
  refine gradual_itemAt rfl (by decide) ((gradual_decode _).bind fun code => ?_) o
  cases Visibility.ofCode? code with
  | none => exact gradual_lift (gradual_ofExcept _)
  | some visibility => exact (gradual_decodeWith _).bind fun _ => Reading.gradual_pure

theorem gradual_annotationSet? (o : UInt32) : Gradual source (annotationSet? o) := by
  refine gradual_itemAt? rfl (by decide) ((gradual_decode _).bind fun count =>
    (Reading.gradual_gather ?_ _).bind fun _ => Reading.gradual_pure) o
  exact (gradual_decode _).bind fun itemOffset => .ite Reading.gradual_pure
    ((gradual_lift (gradual_annotationItem itemOffset)).bind fun _ => Reading.gradual_pure)

theorem gradual_annotationSetRefList? (o : UInt32) :
    Gradual source (annotationSetRefList? o) := by
  refine gradual_itemAt? rfl (by decide) ((gradual_decode _).bind fun count =>
    (Reading.gradual_gather ?_ _).bind fun _ => Reading.gradual_pure) o
  exact (gradual_decode _).bind fun setOffset => gradual_lift (gradual_annotationSet? setOffset)

theorem gradual_memberAnnotations (member : Section) {notes : Section}
    {notesAt? : UInt32 → Build (Option (Ref notes))}
    (hnotes : ∀ o, Gradual source (notesAt? o)) :
    (memberAnnotations member notes notesAt?).Gradual source :=
  (gradual_decode _).bind fun _ => (gradual_decode _).bind fun o =>
    (gradual_lift (gradual_resolve member _)).bind fun _ => (gradual_lift (hnotes o)).bind fun _ =>
    Reading.gradual_pure

theorem gradual_annotationsDirectory? (o : UInt32) :
    Gradual source (annotationsDirectory? o) :=
  gradual_itemAt? rfl (by decide)
    ((gradual_decode _).bind fun _ => (gradual_decode _).bind fun _ =>
    (gradual_decode _).bind fun _ => (gradual_decode _).bind fun _ =>
    (gradual_lift (gradual_annotationSet? _)).bind fun _ =>
    (Reading.gradual_gather (gradual_memberAnnotations _ gradual_annotationSet?) _).bind fun _ =>
    (Reading.gradual_gather (gradual_memberAnnotations _ gradual_annotationSet?) _).bind fun _ =>
    (Reading.gradual_gather (gradual_memberAnnotations _ gradual_annotationSetRefList?) _).bind
      fun _ => Reading.gradual_pure) o

theorem gradual_debugInfo? (o : UInt32) : Gradual source (debugInfo? o) :=
  gradual_itemAt? rfl (by decide) (gradual_decode _) o

theorem gradual_codeItem? (o : UInt32) : Gradual source (codeItem? o) := by
  unfold codeItem?
  refine .ite gradual_pure ((gradual_decode _ _).bind fun out => ?_)
  refine (gradual_itemOf rfl (by decide) ?_).bind fun _ => gradual_pure
  exact ((gradual_lift (gradual_debugInfo? _)).bind fun _ => gradual_decodeWith _) _

/-! ### Members -/

theorem gradual_methodsFrom (previous : UInt32) (methods : Array MethodItem) (count : Nat) :
    (methodsFrom previous methods count).Gradual source := by
  induction count generalizing previous methods with
  | zero => exact Reading.gradual_pure
  | succ count ih =>
    exact (gradual_decode _).bind fun _ => (gradual_lift (gradual_ofExcept _)).bind fun _ =>
      (gradual_decode _).bind fun _ => (gradual_decode _).bind fun _ =>
      (gradual_lift (gradual_resolve _ _)).bind fun _ =>
      (gradual_lift (gradual_codeItem? _)).bind fun _ => ih _ _

theorem gradual_classMembers : classMembers.Gradual source :=
  (gradual_decode _).bind fun _ => (gradual_decode _).bind fun _ =>
    (gradual_decode _).bind fun _ => (gradual_decode _).bind fun _ =>
    (gradual_decodeWith _).bind fun _ => (gradual_decodeWith _).bind fun _ =>
    (gradual_methodsFrom _ _ _).bind fun _ => (gradual_methodsFrom _ _ _).bind fun _ =>
    Reading.gradual_pure

/-- Members are read without a note about the class to which they belong. -/
theorem establishes_classMembers_classDef (p : Nat) (a : Assembly) :
    Establishes source (fun _ => True) (classMembers.run p)
      (fun out _ => out.1.classDef = none) a := by
  have hany {β : Type} (b : Build β) (a : Assembly) :
      Establishes source (fun _ => True) b (fun _ _ => True) a := by
    unfold Establishes
    split <;> trivial
  unfold classMembers
  repeat
    rw [establishes_run_bind]
    refine (hany _ _).mono fun _ _ _ => ?_
  rfl

/-- The members of a class are entered and registered when they are met for the first time, and
known from then on. -/
theorem establishes_classData?_becomes (o : UInt32) (a : Assembly) :
    Establishes source (fun _ => True) (classData? o) (fun r? a' => a.Becomes source a' ∧
      ∀ r, r? = some r → ∃ key, (a'.known.get .classData).get? key = some r) a := by
  unfold classData?
  rw [establishes_ite]
  refine ⟨fun _ => ⟨.refl, fun r hr => by cases hr⟩, fun _ => ?_⟩
  rw [establishes_bind, establishes_known?]
  cases hknown : (a.known.get .classData).get? (.ofOffset o) with
  | some r =>
    refine ⟨.refl, fun r' hr => ?_⟩
    cases hr
    exact ⟨_, hknown⟩
  | none =>
    refine ((gradual_classMembers o.toNat).and (establishes_classMembers_classDef o.toNat a)).bind
      fun out a₁ ⟨hbecomes, hx⟩ => ?_
    rw [establishes_bind]
    refine establishes_enter_of_ok fun size r a₂ henter => ?_
    rw [establishes_bind, establishes_changeGraph]
    refine ⟨hbecomes.trans (Assembly.Change.members hx henter).becomes, fun r' hr => ?_⟩
    cases hr
    exact ⟨_, ((Assembly.of_enter henter).2.2.1 _).trans (if_pos rfl)⟩

/-! ### Tables -/

section Rows

variable {s : Section} {α : Type} [Row α] {range : SectionRange}
  {content : UInt32 → α → Build s.Content} {added : Ref s → s.Content → Build Unit}

/-- A row is read gradually if its content is, and if adding the entry is one change. -/
theorem gradual_row {P : s.Content → Assembly → Prop}
    (hcontent : ∀ index row a, Establishes source (fun _ => True) (content index row)
      (fun x a' => a.Becomes source a' ∧ P x a') a)
    (hadded : ∀ index x r a a', P x a →
      a.enterRow source.options.keepOffsets s range.offset index x = .ok (r, a') →
      Establishes source (fun _ => True) (added r x) (fun _ => Assembly.Change source a) a')
    (index : UInt32) : Gradual source (row s α range.offset content added index) := by
  refine gradual_read_bind ((gradual_ofExcept _).bind fun row a => ?_)
  rw [establishes_bind]
  refine (hcontent index row a).mono fun x a₁ ⟨hbecomes, hx⟩ => ?_
  rw [establishes_bind]
  unfold enterRow Establishes
  split
  · rename_i out henter
    exact (hadded index x out.1 a₁ out.2 hx henter).mono fun _ a' h => hbecomes.trans h.becomes
  · trivial

theorem gradual_table (hrow : ∀ index, Gradual source (row s α range.offset content added index)) :
    Gradual source (table s α range content added) := by
  refine (gradual_setSectionOffset _ _).bind fun _ => ?_
  generalize (0 : Nat) = index
  induction range.size.toNat generalizing index with
  | zero => exact gradual_pure
  | succ left ih => exact (hrow _).bind fun _ => ih (index + 1)

/-- A table whose entries are just added is read gradually if their contents are. -/
theorem gradual_table_of_content (hs : s ≠ .classDef) (hrange : source.range? s = some range)
    (hcontent : ∀ index row, Gradual source (content index row)) :
    Gradual source (table s α range content) :=
  gradual_table <| gradual_row (P := fun _ _ => True)
    (fun index row a => (hcontent index row a).mono fun _ _ h => ⟨h, trivial⟩)
    fun _ _ _ _ _ _ h => .row hs hrange h

end Rows

theorem gradual_stringIds : Gradual source (stringIds source.header.stringIds) :=
  gradual_table_of_content (by decide) rfl fun _ _ => (gradual_stringData _).bind fun _ =>
    gradual_pure

theorem gradual_typeIds : Gradual source (typeIds source.header.typeIds) :=
  gradual_table_of_content (by decide) rfl fun _ _ => (gradual_resolve _ _).bind fun _ =>
    gradual_pure

theorem gradual_protoIds : Gradual source (protoIds source.header.protoIds) :=
  gradual_table_of_content (by decide) rfl fun _ _ => (gradual_resolve _ _).bind fun _ =>
    (gradual_resolve _ _).bind fun _ => (gradual_typeList? _).bind fun _ => gradual_pure

theorem gradual_fieldIds : Gradual source (fieldIds source.header.fieldIds) :=
  gradual_table_of_content (by decide) rfl fun _ _ => (gradual_resolve _ _).bind fun _ =>
    (gradual_resolve _ _).bind fun _ => (gradual_resolve _ _).bind fun _ => gradual_pure

theorem gradual_methodIds : Gradual source (methodIds source.header.methodIds) :=
  gradual_table_of_content (by decide) rfl fun _ _ => (gradual_resolve _ _).bind fun _ =>
    (gradual_resolve _ _).bind fun _ => (gradual_resolve _ _).bind fun _ => gradual_pure

/-- A class refers to members that are known when it is added. -/
theorem establishes_classDef_becomes (row : ClassDefRow) (a : Assembly) :
    Establishes source (fun _ => True) (classDef row) (fun x a' => a.Becomes source a' ∧
      ∀ c, x.classData = some c → ∃ key, (a'.known.get .classData).get? key = some c) a := by
  refine (gradual_resolve _ _).bind_of_becomes .refl fun _ a' ha => ?_
  refine (gradual_resolveOrNone _ _).bind_of_becomes ha fun _ a' ha => ?_
  refine (gradual_typeList? _).bind_of_becomes ha fun _ a' ha => ?_
  refine (gradual_resolveOrNone _ _).bind_of_becomes ha fun _ a' ha => ?_
  refine (gradual_annotationsDirectory? _).bind_of_becomes ha fun _ a' ha => ?_
  refine (gradual_encodedArray? _).bind_of_becomes ha fun _ a' ha => ?_
  exact (establishes_classData?_becomes _ a').bind fun _ _ h => ⟨ha.trans h.1, h.2⟩

theorem gradual_classDefs : Gradual source (classDefs source.header.classDefs) := by
  refine gradual_table <| gradual_row (fun _ row a => establishes_classDef_becomes row a)
    fun index x r a a' hx henter => ?_
  have hchange := Assembly.Change.classRow hx henter
  unfold claimMembers
  unfold Graph.claim at hchange
  cases hdata : x.classData with
  | none =>
    rw [hdata] at hchange
    exact hchange
  | some c =>
    rw [hdata] at hchange
    exact hchange

theorem gradual_mapSection {s : Section} {kind : MapItemType} {take : SectionRange → Build Unit}
    (hrange : source.range? s = (source.map.find? kind).map fun e => ⟨e.size, e.offset⟩)
    (htake : ∀ range, source.range? s = some range → Gradual source (take range)) :
    Gradual source (mapSection kind take) := by
  refine gradual_read_bind ?_
  cases hentry : source.map.find? kind with
  | some entry =>
    rw [hentry] at hrange
    exact htake _ hrange
  | none => exact gradual_pure

theorem gradual_methodHandles : Gradual source (mapSection .methodHandleItem methodHandles) := by
  refine gradual_mapSection rfl fun range hrange =>
    gradual_table_of_content (by decide) hrange fun index row => ?_
  cases MethodHandleKind.ofCode? row.kind with
  | none => exact gradual_ofExcept _
  | some kind =>
    exact Gradual.bind (.ite ((gradual_resolve _ _).bind fun _ => gradual_pure)
      ((gradual_resolve _ _).bind fun _ => gradual_pure)) fun _ => gradual_pure

theorem gradual_callSiteIds : Gradual source (mapSection .callSiteIdItem callSiteIds) := by
  refine gradual_mapSection rfl fun range hrange =>
    gradual_table_of_content (by decide) hrange fun index row =>
      (gradual_encodedArray? _).bind fun array => ?_
  cases array with
  | none => exact gradual_ofExcept _
  | some array => exact gradual_pure

/-! ### Completion -/

/-- The link data is copied beside the entities. -/
theorem establishes_linkData_entities (range : SectionRange) (a : Assembly) :
    Establishes source (fun _ => True) (linkData range) (fun _ a' => a'.layout = a.layout ∧
      a'.known = a.known ∧ ∀ s, a'.graph.entities s = a.graph.entities s) a := by
  unfold linkData
  rw [establishes_ite]
  refine ⟨fun _ => ⟨rfl, rfl, fun _ => rfl⟩, fun _ => ?_⟩
  rw [establishes_bind, establishes_read]
  cases source.data.slice? range.offset.toNat range.size.toNat with
  | some bytes => exact ⟨rfl, rfl, fun s => by cases s <;> rfl⟩
  | none => trivial

theorem gradual_hiddenapi (range : SectionRange) : Gradual source (hiddenapi range) := by
  refine gradual_read_bind (gradual_get_bind fun a => (gradual_ofExcept _).bind fun out =>
    Gradual.bind ?_ fun _ => ?_)
  · exact gradual_changeGraph (fun g s => by cases s <;> rfl) fun _ => rfl
  · exact gradual_changeLayout (fun _ _ _ => rfl) fun _ hkeep _ => if_neg (by simp [hkeep])

theorem gradual_checkEntry (entry : MapEntry) : Gradual source (checkEntry entry) := by
  unfold checkEntry
  cases entry.kind? with
  | none => exact gradual_pure
  | some kind =>
    refine gradual_read_bind (gradual_get_bind fun a => ?_)
    cases expectedRange? source.header a.graph entry kind with
    | some expected => exact .ite (gradual_ofExcept _) gradual_pure
    | none =>
      cases dataSectionOf? kind with
      | some s => exact gradual_setSectionOffset s _
      | none => exact gradual_pure

theorem gradual_sortSection (s : Section) : Gradual source (sortSection s) := by
  intro a
  unfold sortSection
  rw [establishes_modify]
  refine Assembly.Change.becomes (.aside (fun h t => ?_) (fun t => ?_)
    (Graph.methodItems_setEntities ..) rfl (fun _ _ => rfl) fun _ h => h)
  · by_cases ht : t = s
    · subst ht
      rw [Graph.entities_setEntities_self]
      exact (h t).reorder _
    · rw [Graph.entities_setEntities_of_ne _ _ (Ne.symm ht)]
      exact h t
  · by_cases ht : t = s
    · subst ht
      rw [Graph.entities_setEntities_self]
      rfl
    · rw [Graph.entities_setEntities_of_ne _ _ (Ne.symm ht)]

theorem gradual_linkData (range : SectionRange) : Gradual source (linkData range) := by
  refine .ite gradual_pure (gradual_read_bind ?_)
  cases source.data.slice? range.offset.toNat range.size.toNat with
  | some bytes => exact gradual_changeGraph (fun g s => by cases s <;> rfl) fun _ => rfl
  | none => exact gradual_ofExcept _

/-- A whole graph is assembled by changes, and in the end its data items are put in order. -/
theorem establishes_all_becomes (a : Assembly) :
    Establishes source (fun _ => True) all (fun _ a' => ∃ b, a.Becomes source b ∧
      b.Becomes source a' ∧ b.Sorted a') a := by
  unfold all
  rw [establishes_bind, establishes_read]
  refine gradual_stringIds.bind_of_becomes .refl fun _ a' ha => ?_
  refine gradual_typeIds.bind_of_becomes ha fun _ a' ha => ?_
  refine gradual_protoIds.bind_of_becomes ha fun _ a' ha => ?_
  refine gradual_fieldIds.bind_of_becomes ha fun _ a' ha => ?_
  refine gradual_methodIds.bind_of_becomes ha fun _ a' ha => ?_
  refine gradual_classDefs.bind_of_becomes ha fun _ a' ha => ?_
  refine gradual_methodHandles.bind_of_becomes ha fun _ a' ha => ?_
  refine gradual_callSiteIds.bind_of_becomes ha fun _ a' ha => ?_
  have hrest (a' : Assembly) (ha : a.Becomes source a') :
      Establishes source (fun _ => True) (do
        source.map.entries.forM checkEntry
        Section.dataSections.forM sortSection
        linkData source.header.link)
        (fun _ a' => ∃ b, a.Becomes source b ∧ b.Becomes source a' ∧ b.Sorted a') a' := by
    refine (gradual_forM_array gradual_checkEntry).bind_of_becomes ha fun _ b hb => ?_
    refine ((gradual_forM gradual_sortSection).and (establishes_sortSections (by decide))).bind
      fun _ a₁ ⟨hsort, hlayout, hknown, _, hentities⟩ => ?_
    refine ((gradual_linkData _).and (establishes_linkData_entities _ a₁)).mono
      fun _ a₂ ⟨hlink, hlayout', hknown', hsame⟩ => ?_
    exact ⟨b, hb, hsort.trans hlink, hknown'.trans hknown, hlayout'.trans hlayout, fun s =>
      (hsame s).trans (hentities s)⟩
  rw [establishes_ite]
  refine ⟨fun _ => Gradual.bind_of_becomes ?_ ha fun _ => hrest, fun _ => hrest a' ha⟩
  refine gradual_read_bind ?_
  cases source.map.find? .hiddenapiClassData with
  | none => exact gradual_pure
  | some entry => exact gradual_hiddenapi _

end Build

namespace Dex

/-- What is read from an image is what has been assembled when everything has been read. -/
theorem exists_all_of_ofImage {options : BuildOptions} {image : Image} {d : Dex}
    (h : ofImage options image = .ok d) :
    ∃ map a, MapList.read image.data image.header.mapOffset = .ok map ∧
      Build.all ⟨image.data, image.header, map, options⟩ (.start image.header) = .ok ((), a) ∧
      d = ⟨a.graph, a.layout, {}⟩ := by
  rw [ofImage_eq] at h
  cases hmap : MapList.read image.data image.header.mapOffset with
  | error e =>
    rw [hmap] at h
    cases h
  | ok map =>
    rw [hmap] at h
    dsimp only at h
    cases hrun : Build.all ⟨image.data, image.header, map, options⟩ (.start image.header) with
    | error e =>
      rw [hrun] at h
      cases h
    | ok out =>
      rw [hrun] at h
      exact ⟨map, out.2, rfl, hrun, (Except.ok.inj h).symm⟩

end Dex

end DexGraph
