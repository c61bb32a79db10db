import DexGraph.Proofs.Assembly.Changes
import DexGraph.Proofs.Assembly.Rewriting
import DexGraph.Proofs.Assembly.Sharing

/-!
# Navigation

The links of a graph that no image stores are set while the image is read: the locators of methods,
the notes of members, and the notes of class data. They are exact. An index of the method table
leads to the last method that was registered under it, and class data notes the first class that
refers to it. `Assembly.Navigable` says so of an assembly at any time, since every change keeps it
(`Assembly.Change.navigable`), and `Dex.ofImage_navigation` says so of a graph that has been read.
-/

namespace DexGraph

namespace Graph

variable {g g' : Graph}

/-- The methods of all classes with their locators, in the order in which they are registered: class
data is registered when it is added, so that the order is that of the slots. -/
def declared (g : Graph) : List (MethodLocator × MethodItem) :=
  g.classDatas.refs.toList.flatMap fun r =>
    ((g.get? r).map fun c => ClassData.located c r).getD []

/-- The first class that refers to class data. -/
def owner? (g : Graph) (r : Ref .classData) : Option (Ref .classDef) :=
  g.classDefs.refs.toList.find? fun d => (g.get? d).bind ClassDef.classData = some r

theorem mem_declared (hsize : g.classDatas.size < 2 ^ 32) {l : MethodLocator} {m : MethodItem} :
    (l, m) ∈ g.declared ↔ g.methodAt? l = some m := by
  rw [declared, List.mem_flatMap, methodAt?_eq_some_iff]
  constructor
  · rintro ⟨r, -, hmem⟩
    cases hc : g.get? r with
    | none =>
      rw [hc] at hmem
      cases hmem
    | some c =>
      rw [hc] at hmem
      obtain ⟨rfl, hm⟩ := ClassData.mem_located.mp hmem
      exact ⟨c, hc, hm⟩
  · rintro ⟨c, hc, hm⟩
    refine ⟨l.classData, (Collection.mem_refs hsize).mpr (has_of_get? hc), ?_⟩
    rw [hc]
    exact ClassData.mem_located.mpr ⟨rfl, hm⟩

theorem declared_congr (hcount : g'.classDatas.size = g.classDatas.size)
    (hlocated : ∀ r : Ref .classData, (g'.get? r).map (fun c => ClassData.located c r) =
      (g.get? r).map fun c => ClassData.located c r) : g'.declared = g.declared := by
  unfold declared
  simp only [Collection.toList_refs, hcount, hlocated]

/-- The methods of class data that has been added come last. -/
theorem declared_add {r : Ref .classData} {c : ClassData} (hsize : g.classDatas.size < 2 ^ 32)
    (hrefs : g'.classDatas.refs.toList = g.classDatas.refs.toList ++ [r])
    (hget : ∀ r' : Ref .classData, g'.get? r' = if r' = r then some c else g.get? r')
    (hfresh : g.get? r = none) : g'.declared = g.declared ++ c.located r := by
  unfold declared
  rw [hrefs, List.flatMap_append]
  refine congrArg₂ _ (List.flatMap_congr fun r' hr' => ?_) ?_
  · rw [hget, if_neg]
    rintro rfl
    obtain ⟨y, hy⟩ := has_iff_exists.mp ((Collection.mem_refs hsize).mp hr')
    cases hfresh.symm.trans hy
  · simp [hget]

theorem owner?_congr (hcount : g'.classDefs.size = g.classDefs.size)
    (hget : ∀ d : Ref .classDef, g'.get? d = g.get? d) (r : Ref .classData) :
    g'.owner? r = g.owner? r := by
  unfold owner?
  simp only [Collection.toList_refs, hcount, hget]

/-- A class that has been added comes after those that were there. -/
theorem owner?_add {d : Ref .classDef} {x : ClassDef} (hsize : g.classDefs.size < 2 ^ 32)
    (hrefs : g'.classDefs.refs.toList = g.classDefs.refs.toList ++ [d])
    (hget : ∀ d' : Ref .classDef, g'.get? d' = if d' = d then some x else g.get? d')
    (hfresh : g.get? d = none) (r : Ref .classData) :
    g'.owner? r = (g.owner? r).or (if x.classData = some r then some d else none) := by
  unfold owner?
  rw [hrefs, List.find?_append]
  refine congrArg₂ _ (List.find?_congr fun d' hd' => ?_) ?_
  · rw [hget, if_neg]
    rintro rfl
    obtain ⟨y, hy⟩ := has_iff_exists.mp ((Collection.mem_refs hsize).mp hd')
    cases hfresh.symm.trans hy
  · simp [hget, List.find?_singleton]

theorem owner?_eq_none_iff (hsize : g.classDefs.size < 2 ^ 32) {r : Ref .classData} :
    g.owner? r = none ↔ ∀ (d : Ref .classDef) (x : ClassDef), g.get? d = some x →
      x.classData ≠ some r := by
  unfold owner?
  rw [List.find?_eq_none]
  constructor
  · intro h d x hx hr
    refine h d ((Collection.mem_refs hsize).mpr (has_of_get? hx)) ?_
    simp [hx, hr]
  · intro h d _ hd
    obtain ⟨x, hx, hr⟩ := Option.bind_eq_some_iff.mp (of_decide_eq_true hd)
    exact h d x hx hr

/-- The first class that refers to class data is the one with the lowest index. -/
theorem of_owner?_eq_some (hsize : g.classDefs.size < 2 ^ 32) {r : Ref .classData}
    {d : Ref .classDef} (h : g.owner? r = some d) :
    (∃ x, g.get? d = some x ∧ x.classData = some r) ∧
      ∀ (d' : Ref .classDef) (x' : ClassDef), g.get? d' = some x' → x'.classData = some r →
        d.pos ≤ d'.pos := by
  obtain ⟨hd, before, after, hrefs, hbefore⟩ := List.find?_eq_some_iff_append.mp h
  refine ⟨Option.bind_eq_some_iff.mp (of_decide_eq_true hd), fun d' x' hx' hr' => ?_⟩
  have hmem := (Collection.mem_refs hsize).mpr (has_of_get? hx')
  have hpairwise := Collection.pairwise_refs hsize
  rw [hrefs] at hmem hpairwise
  rcases List.mem_append.mp hmem with hmem | hmem
  · have hnot := hbefore d' hmem
    simp [hx', hr'] at hnot
  · rcases List.mem_cons.mp hmem with rfl | hmem
    · exact Nat.le_refl _
    · exact Nat.le_of_lt
        (List.rel_of_pairwise_cons (List.pairwise_append.mp hpairwise).2.1 hmem)

theorem mem_methodItems_iff {k : UInt32} :
    k ∈ g.methodItems ↔ ∃ l, g.methodItems[k]? = some l := by
  rw [Std.TreeMap.mem_iff_isSome_getElem?, Option.isSome_iff_exists]

end Graph

/-! ## Single changes -/

/-- The locators and the notes of class data are exact, and no class refers to class data that has
not been met. -/
structure Assembly.Navigable (a : Assembly) : Prop where
  methods : a.graph.methodItems =
    a.graph.declared.foldl (fun items m => items.insert m.2.method.slot m.1) ∅
  owners : ∀ (r : Ref .classData) (c : ClassData), a.graph.get? r = some c →
    c.classDef = a.graph.owner? r
  known : ∀ (key : ItemKey) (r : Ref .classData),
    (a.known.get .classData).get? key = some r → a.graph.Has .classData r
  claimed : ∀ (d : Ref .classDef) (x : ClassDef) (r : Ref .classData), a.graph.get? d = some x →
    x.classData = some r → a.graph.Has .classData r

namespace Assembly

variable {source : Source} {a a' : Assembly}

/-- Nothing but class data, classes and locators matters. -/
theorem Navigable.of_items (h : a.Navigable)
    (hdata : (a'.graph.entities .classData).items = (a.graph.entities .classData).items)
    (hdef : (a'.graph.entities .classDef).items = (a.graph.entities .classDef).items)
    (hmethods : a'.graph.methodItems = a.graph.methodItems)
    (hknown : a'.known.get .classData = a.known.get .classData) : a'.Navigable := by
  have hget (r : Ref .classData) : a'.graph.get? r = a.graph.get? r := by
    unfold Graph.get? Collection.get?
    rw [hdata]
  have hgetDef (d : Ref .classDef) : a'.graph.get? d = a.graph.get? d := by
    unfold Graph.get? Collection.get?
    rw [hdef]
  have hhas (r : Ref .classData) : a'.graph.Has .classData r ↔ a.graph.Has .classData r := by
    rw [Graph.has_iff_exists, Graph.has_iff_exists, hget]
  have hdeclared : a'.graph.declared = a.graph.declared :=
    Graph.declared_congr (congrArg Array.size hdata) fun r => by rw [hget]
  have howner (r : Ref .classData) : a'.graph.owner? r = a.graph.owner? r :=
    Graph.owner?_congr (congrArg Array.size hdef) hgetDef r
  refine ⟨?_, fun r c hc => ?_, fun key r hr => ?_, fun d x r hx hr => ?_⟩
  · rw [hmethods, hdeclared, h.methods]
  · rw [howner, h.owners r c ((hget r).symm.trans hc)]
  · exact (hhas r).mpr (h.known key r (hknown ▸ hr))
  · exact (hhas r).mpr (h.claimed d x r ((hgetDef d).symm.trans hx) hr)

theorem Navigable.grown {s : Section} {x : s.Content} {r : Ref s} (h : a.Navigable)
    (hg : a.Grown a' s x r) (hdata : s ≠ .classData) (hdef : s ≠ .classDef)
    (hknown : a'.known.get .classData = a.known.get .classData) : a'.Navigable :=
  h.of_items (congrArg Collection.items (hg.entities_of_ne _ hdata.symm))
    (congrArg Collection.items (hg.entities_of_ne _ hdef.symm)) hg.methodItems hknown

/-- An entity that has been added comes last. -/
theorem Grown.toList_refs {s : Section} {x : s.Content} {r : Ref s} (hg : a.Grown a' s x r)
    {g : Graph} (hcount : g.count s = a'.graph.count s) :
    (g.entities s).refs.toList = (a.graph.entities s).refs.toList ++ [r] := by
  have hadd : (a'.graph.entities s).refs.toList =
      (a.graph.entities s).refs.toList ++ [r] := by
    rw [hg.entities_self, Collection.toList_refs_add, ← hg.ref]
  rw [Collection.toList_refs] at hadd ⊢
  exact (congrArg (fun n => (List.range n).map _) hcount).trans hadd

/-- Members that are entered have not been claimed by a class, and they come to be registered behind
all others. -/
theorem Navigable.members (h : a.Navigable) (ha : ∀ s, (a.graph.entities s).Coherent)
    {x : ClassData} {r : Ref .classData} (hg : a.Grown a' .classData x r)
    (hx : x.classDef = none) {key : ItemKey}
    (hknown : ∀ key' : ItemKey, ((a'.known.get .classData).get? key' : Option (Ref .classData)) =
      if key' = key then some r else (a.known.get .classData).get? key') :
    Navigable { a' with
      graph := Build.registerMethods r (a'.graph.modify r fun c => c.attach r) } := by
  have hfresh : a.graph.get? r = none := hg.get?_ref (ha _)
  have hself := (Graph.get?_attach (hg.get?_self (ha _)) r).trans (if_pos rfl)
  have hget := Graph.get?_registerMethods_attach (hg.get?_self (ha _))
  have hgetDef (d : Ref .classDef) :
      (Build.registerMethods r (a'.graph.modify r fun c => c.attach r)).get? d = a.graph.get? d :=
    (Graph.get?_registerMethods_attach_of_ne (by decide) d).trans (hg.get?_of_ne (by decide) d)
  have hcount (s : Section) :
      (Build.registerMethods r (a'.graph.modify r fun c => c.attach r)).count s =
        a'.graph.count s := by
    rw [Graph.count_registerMethods, Graph.count_modify]
  have hdeclared : (Build.registerMethods r (a'.graph.modify r fun c => c.attach r)).declared =
      a.graph.declared ++ (x.attach r).located r :=
    Graph.declared_add (ha .classData).size_lt (hg.toList_refs (hcount _)) hget hfresh
  have howner (r' : Ref .classData) :
      (Build.registerMethods r (a'.graph.modify r fun c => c.attach r)).owner? r' =
        a.graph.owner? r' := by
    refine Graph.owner?_congr ((hcount .classDef).trans ?_) hgetDef r'
    exact congrArg Collection.size (hg.entities_of_ne .classDef (by decide))
  have hmore {r' : Ref .classData} (hr : a.graph.Has .classData r') :
      (Build.registerMethods r (a'.graph.modify r fun c => c.attach r)).Has .classData r' := by
    unfold Graph.Has
    rw [hcount]
    exact Nat.lt_of_lt_of_le hr (hg.narrower _)
  refine ⟨?_, fun r' c hc => ?_, fun key' r' hr => ?_, fun d y r' hy hr => ?_⟩
  · rw [hdeclared, List.foldl_append, ← h.methods, ← hg.methodItems,
      ← Graph.methodItems_modify a'.graph r, Graph.registerMethods_eq hself]
  · rw [howner]
    rw [hget] at hc
    split at hc
    · rename_i heq
      cases hc
      subst heq
      refine hx.trans (Eq.symm ((Graph.owner?_eq_none_iff (ha .classDef).size_lt).mpr ?_))
      intro d y hy hr
      obtain ⟨z, hz⟩ := Graph.has_iff_exists.mp (h.claimed d y _ hy hr)
      cases hfresh.symm.trans hz
    · exact h.owners r' c hc
  · have hr : ((a'.known.get .classData).get? key' : Option (Ref .classData)) = some r' := hr
    rw [hknown] at hr
    split at hr
    · cases hr
      exact Graph.has_of_get? ((hget r).trans (if_pos rfl))
    · exact hmore (h.known key' r' hr)
  · exact hmore (h.claimed d y r' ((hgetDef d).symm.trans hy) hr)

/-- A class that is added claims its members unless an earlier one has them. -/
theorem Navigable.classRow (h : a.Navigable) (ha : ∀ s, (a.graph.entities s).Coherent)
    {x : ClassDef} {d : Ref .classDef} (hg : a.Grown a' .classDef x d) (hknown : a'.known = a.known)
    (hx : ∀ r, x.classData = some r → ∃ key, (a.known.get .classData).get? key = some r) :
    Navigable { a' with graph := a'.graph.claim d x } := by
  have hget (r : Ref .classData) : (a'.graph.claim d x).get? r =
      if x.classData = some r then (a.graph.get? r).map (ClassData.belongTo · d)
      else a.graph.get? r := by
    rw [Graph.get?_claim, hg.get?_of_ne (by decide)]
  have hgetDef (d' : Ref .classDef) : (a'.graph.claim d x).get? d' =
      if d' = d then some x else a.graph.get? d' :=
    (Graph.get?_claim_of_ne _ _ _ (by decide) d').trans (hg.get?_self (ha _) d')
  have hcount : (a'.graph.claim d x).count .classData = a.graph.count .classData := by
    rw [Graph.count_claim]
    exact congrArg Collection.size (hg.entities_of_ne _ (by decide))
  have hhas (r : Ref .classData) :
      (a'.graph.claim d x).Has .classData r ↔ a.graph.Has .classData r := by
    unfold Graph.Has
    rw [hcount]
  have hdeclared : (a'.graph.claim d x).declared = a.graph.declared := by
    refine Graph.declared_congr hcount fun r => ?_
    rw [hget]
    split
    · rw [Option.map_map]
      rfl
    · rfl
  have howner (r : Ref .classData) : (a'.graph.claim d x).owner? r =
      (a.graph.owner? r).or (if x.classData = some r then some d else none) :=
    Graph.owner?_add (ha .classDef).size_lt (hg.toList_refs (Graph.count_claim ..)) hgetDef
      (hg.get?_ref (ha _)) r
  refine ⟨?_, fun r c hc => ?_, fun key r hr => ?_, fun d' y r hy hr => ?_⟩
  · rw [Graph.methodItems_claim, hdeclared, hg.methodItems, h.methods]
  · rw [howner]
    rw [hget] at hc
    by_cases hr : x.classData = some r
    · rw [if_pos hr] at hc ⊢
      obtain ⟨c', hc', rfl⟩ := Option.map_eq_some_iff.mp hc
      rw [← h.owners r c' hc', ClassData.belongTo]
      cases c'.classDef <;> rfl
    · rw [if_neg hr] at hc ⊢
      rw [Option.or_none, h.owners r c hc]
  · exact (hhas r).mpr (h.known key r (hknown ▸ hr))
  · rw [hhas]
    rw [hgetDef] at hy
    split at hy
    · cases hy
      obtain ⟨key, hkey⟩ := hx r hr
      exact h.known key r hkey
    · exact h.claimed d' y r hy hr

theorem Change.navigable (hchange : Change source a a')
    (ha : ∀ s, (a.graph.entities s).Coherent) (h : a.Navigable) : a'.Navigable := by
  cases hchange with
  | item hs hmembers henter =>
    obtain ⟨-, hg, -, -⟩ := of_enter henter
    refine h.grown hg hmembers ?_ (hg.known_of_ne _ (Ne.symm hmembers))
    rintro rfl
    cases hs
  | members hx henter =>
    obtain ⟨-, hg, hknown, -⟩ := of_enter henter
    exact h.members ha hg hx hknown
  | row hs hrange henter =>
    obtain ⟨-, hg, hknown, -⟩ := of_enterRow henter
    refine h.grown hg ?_ hs (by rw [hknown])
    rintro rfl
    cases hrange
  | classRow hx henter =>
    obtain ⟨-, hg, hknown, -⟩ := of_enterRow henter
    exact h.classRow ha hg hknown hx
  | aside _ hitems hmethods hknown => exact h.of_items (hitems _) (hitems _) hmethods (by rw [hknown])

theorem navigable_start (header : FileHeader) : (Assembly.start header).Navigable where
  methods := by
    have hdeclared : (Assembly.start header).graph.declared = [] := by
      unfold Graph.declared
      rw [Collection.toList_refs]
      rfl
    rw [hdeclared]
    rfl
  owners _ _ h := by cases h
  known key r h := by
    have hnone : (((Assembly.start header).known.get .classData).get? key :
        Option (Ref .classData)) = none := by
      simp only [Assembly.start, PerSection.get_replicate]
      rfl
    rw [hnone] at h
    cases h
  claimed _ _ _ h := by cases h

end Assembly

/-! ## Classes and their members -/

namespace Section

/-- Only a class refers to class data. -/
theorem eq_classDef_of_mem_links {s : Section} {x : s.Content} {r : Option (Ref .classData)}
    (h : (⟨.classData, r⟩ : Link) ∈ s.links x) : s = .classDef := by
  cases s <;> simp [links] at h
  rfl

/-- The class data that a class refers to are its members. -/
theorem classData_of_mem_links {x : ClassDef} {r : Option (Ref .classData)}
    (h : (⟨.classData, r⟩ : Link) ∈ Section.classDef.links x) : x.classData = r := by
  simpa [links, eq_comm] using h

end Section

/-- Class data is only met in a row of the class table, so that a class refers to it. -/
theorem Assembly.Complete.exists_classDef {source : Source} {a classes : Assembly}
    (h : a.Complete source classes) {r : Ref .classData} (hr : a.graph.Has .classData r) :
    ∃ (d : Ref .classDef) (x : ClassDef), a.graph.get? d = some x ∧ x.classData = some r := by
  obtain ⟨o, ho⟩ := (h.built.valid.has_iff .classData rfl r).mp hr
  have hlink {s : Section} {p q : Nat} {x : s.Content} {met : List Pointer}
      (hx : s.survey.Reads (a.view source.data) source.data p x met q)
      (hmem : ⟨.classData, o⟩ ∈ met) : (⟨.classData, some r⟩ : Link) ∈ s.links x := by
    rw [Section.survey_tells_links (fun _ => h.built.valid.find_zero) s _ _ _ _ _ hx,
      List.nil_append, ← ho]
    exact List.mem_map_of_mem hmem
  obtain ⟨root, hroot, hpath⟩ :=
    h.built.met .classData o (Option.isSome_iff_exists.mpr ⟨r, ho⟩) _ (.refl _)
  cases hpath with
  | refl =>
    obtain ⟨s, size, range, i, x, met, q, hs, hrange, hi, hx, hmem⟩ := hroot
    obtain rfl := Section.eq_classDef_of_mem_links (hlink hx hmem)
    obtain ⟨hhas, hstarts⟩ := h.starts_of_row hs hrange hi
    obtain ⟨y, hy⟩ := Graph.has_iff_exists.mp hhas
    obtain ⟨p, hp, met', q', hreads, -⟩ := h.built.valid.shown _ _ y hy
    obtain rfl := h.built.valid.starts_unique hstarts hp
    obtain ⟨rfl, -⟩ := hx.unique (hreads _ (.refl _))
    exact ⟨_, _, hy, Section.classData_of_mem_links (hlink hx hmem)⟩
  | tail hpath hlead =>
    -- what leads to class data would be a class, but no pointer stands for a row
    obtain ⟨-, y, met, q, hy, hmem⟩ := hlead
    have hitem := h.rowSize?_of_met ⟨root, hroot, hpath⟩
    rw [Section.eq_classDef_of_mem_links (hlink hy hmem)] at hitem
    cases hitem

/-! ## Images -/

/-- The links by which the methods and the class of class data are found are exact. Locators are what
comes of registering all methods that are declared. The indices under which a method is registered
are those of the methods of classes, and the method found under one of them is the last one with
this index that was registered. Every member notes the class data that holds it. Class data notes
the class with the lowest index of those that refer to it. -/
structure Graph.Navigation (g : Graph) : Prop where
  registered : g.methodItems =
    g.declared.foldl (fun items m => items.insert m.2.method.slot m.1) ∅
  keys : ∀ k : UInt32, k ∈ g.methodItems ↔ ∃ (r : Ref .classData) (c : ClassData),
    g.get? r = some c ∧ ∃ m ∈ c.allMethods, m.method.slot = k
  found : ∀ k ∈ g.methodItems, ∃ m, g.methodItem? k = some m
  last : ∀ (k : UInt32) (m : MethodItem), g.methodItem? k = some m → m.method.slot = k ∧
    ∃ l before after, g.methodItems[k]? = some l ∧ g.declared = before ++ (l, m) :: after ∧
      ∀ later ∈ after, later.2.method.slot ≠ k
  members : ∀ (r : Ref .classData) (c : ClassData), g.get? r = some c →
    (∀ f ∈ c.allFields, f.classData = some r) ∧ ∀ m ∈ c.allMethods, m.classData = some r
  owners : ∀ (r : Ref .classData) (c : ClassData), g.get? r = some c →
    ∃ (d : Ref .classDef) (x : ClassDef), c.classDef = some d ∧ g.get? d = some x ∧
      x.classData = some r ∧ ∀ (d' : Ref .classDef) (x' : ClassDef), g.get? d' = some x' →
        x'.classData = some r → d.pos ≤ d'.pos

namespace Assembly.Navigable

variable {source : Source} {a classes : Assembly}

/-- The method that is registered under an index is the last one with this index. -/
theorem last (h : a.Navigable) {k : UInt32} {l : MethodLocator}
    (hl : a.graph.methodItems[k]? = some l) :
    ∃ m before after, a.graph.declared = before ++ (l, m) :: after ∧ m.method.slot = k ∧
      ∀ later ∈ after, later.2.method.slot ≠ k := by
  rw [h.methods, Graph.getElem?_foldl_insert, Std.TreeMap.getElem?_emptyc, Option.or_none] at hl
  obtain ⟨⟨l', m⟩, hfind, rfl⟩ := Option.map_eq_some_iff.mp hl
  obtain ⟨hslot, after, before, hreverse, hafter⟩ := List.find?_eq_some_iff_append.mp hfind
  refine ⟨m, before.reverse, after.reverse, ?_, of_decide_eq_true hslot, fun later hlater => ?_⟩
  · rw [← List.reverse_reverse a.graph.declared, hreverse]
    simp
  · simpa using hafter later (List.mem_reverse.mp hlater)

theorem navigation (h : a.Navigable) (hcomplete : a.Complete source classes) :
    a.graph.Navigation := by
  have hregistered := hcomplete.built.registered
  have hdata := (hcomplete.built.valid.coherent .classData).size_lt
  have hdef := (hcomplete.built.valid.coherent .classDef).size_lt
  refine ⟨h.methods, fun k => ?_, fun k hk => ?_, fun k m hm => ?_, hregistered.linked.members,
    fun r c hc => ?_⟩
  · rw [Graph.mem_methodItems_iff]
    constructor
    · rintro ⟨l, hl⟩
      obtain ⟨m, hm, hslot⟩ := hregistered.linked.locators k l hl
      obtain ⟨c, hc, hk⟩ := Graph.methodAt?_eq_some_iff.mp hm
      refine ⟨l.classData, c, hc, m, ?_, hslot⟩
      rw [← Array.mem_toList_iff, ← ClassData.map_snd_methodPlaces]
      exact List.mem_map.mpr ⟨(⟨l.kind, l.position⟩, m), ClassData.mem_methodPlaces.mpr hk, rfl⟩
    · rintro ⟨r, c, hc, m, hm, rfl⟩
      rw [← Array.mem_toList_iff, ← ClassData.map_snd_methodPlaces] at hm
      obtain ⟨⟨p, m'⟩, hp, rfl⟩ := List.mem_map.mp hm
      exact hregistered.indices ⟨r, p.kind, p.position⟩ m'
        (Graph.methodAt?_eq_some_iff.mpr ⟨c, hc, ClassData.mem_methodPlaces.mp hp⟩)
  · obtain ⟨l, hl⟩ := Graph.mem_methodItems_iff.mp hk
    obtain ⟨m, hm, -⟩ := hregistered.linked.locators k l hl
    exact ⟨m, Option.bind_eq_some_iff.mpr ⟨l, hl, hm⟩⟩
  · obtain ⟨l, hl, hat⟩ := Option.bind_eq_some_iff.mp hm
    obtain ⟨m', before, after, hdeclared, hslot, hafter⟩ := h.last hl
    have hmem : (l, m') ∈ a.graph.declared := by
      rw [hdeclared]
      exact List.mem_append_right _ List.mem_cons_self
    obtain rfl : m' = m := Option.some.inj (((Graph.mem_declared hdata).mp hmem).symm.trans hat)
    exact ⟨hslot, l, before, after, hl, hdeclared, hafter⟩
  · cases howner : a.graph.owner? r with
    | none =>
      obtain ⟨d, x, hx, hr⟩ := hcomplete.exists_classDef (Graph.has_of_get? hc)
      exact absurd hr ((Graph.owner?_eq_none_iff hdef).mp howner d x hx)
    | some d =>
      obtain ⟨⟨x, hx, hr⟩, hleast⟩ := Graph.of_owner?_eq_some hdef howner
      exact ⟨d, x, (h.owners r c hc).trans howner, hx, hr, hleast⟩

end Assembly.Navigable

namespace Dex

/-- Whatever the image and the options, the links of a graph that is read are exact. -/
theorem ofImage_navigation {options : BuildOptions} {image : Image} {d : Dex}
    (h : ofImage options image = .ok d) : d.graph.Navigation := by
  obtain ⟨map, a, -, hrun, rfl⟩ := exists_all_of_ofImage h
  let source : Source := ⟨image.data, image.header, map, options⟩
  have hstart := Build.built_start source image.header 18
  obtain ⟨classes, hcomplete⟩ := (Build.establishes_all image.size_data_lt hstart).of_ok hrun
  obtain ⟨b, hbefore, hafter, -⟩ := (Build.establishes_all_becomes (.start image.header)).of_ok hrun
  refine Assembly.Navigable.navigation ?_ hcomplete
  exact (hbefore.trans hafter).preserves (fun _ _ => Assembly.Change.navigable)
    hstart.valid.coherent (fun s => (hcomplete.built.valid.coherent s).size_lt)
    (Assembly.navigable_start image.header)

/-- A graph in which two classes share their members and a third has others. All three methods have
the same index. -/
def sharedMembers : Graph :=
  { Graph.empty with
    stringDatas := .ofItems [⟨3, #[0x4C, 0x41, 0x3B]⟩, ⟨1, #[0x56]⟩, ⟨1, #[0x66]⟩]
    stringIds := .ofItems [⟨⟨0⟩⟩, ⟨⟨1⟩⟩, ⟨⟨2⟩⟩]
    typeIds := .ofItems [⟨⟨0⟩⟩, ⟨⟨1⟩⟩]
    protoIds := .ofItems [⟨⟨1⟩, ⟨1⟩, none⟩]
    methodIds := .ofItems [⟨⟨0⟩, ⟨0⟩, ⟨2⟩⟩]
    classDatas := .ofItems [
      ⟨none, #[], #[], #[⟨⟨9⟩, ⟨0⟩, none, none⟩], #[⟨⟨1⟩, ⟨0⟩, none, none⟩]⟩,
      ⟨none, #[], #[], #[⟨⟨9⟩, ⟨0⟩, none, none⟩], #[]⟩]
    classDefs := .ofItems [
      ⟨⟨0⟩, ⟨1⟩, none, none, none, none, some ⟨0⟩, none⟩,
      ⟨⟨0⟩, ⟨1⟩, none, none, none, none, some ⟨0⟩, none⟩,
      ⟨⟨0⟩, ⟨1⟩, none, none, none, none, some ⟨1⟩, none⟩] }

/-- The image of shared members is read. The method of the third class is found under the index, and
the shared members note the first of their classes. -/
theorem ofImage_navigation_sharedMembers : ∃ image d, ofImage .relayout image = .ok d ∧
    d.graph.Navigation ∧ d.graph.methodItems[(0 : UInt32)]? = some ⟨⟨1⟩, .direct, 0⟩ ∧
    d.graph.classDatas.items.map ClassData.classDef = #[some ⟨0⟩, some ⟨2⟩] := by
  have hread : ((sharedMembers.write .relayout .empty).1.toOption.bind fun bytes =>
      (read? bytes).map fun d => (d.graph.methodItems[(0 : UInt32)]?,
        d.graph.classDatas.items.map ClassData.classDef)) =
      some (some ⟨⟨1⟩, .direct, 0⟩, #[some ⟨0⟩, some ⟨2⟩]) := by
    unfold read? ofImage
    simp only [Graph.write, Writer.writeImage, Writer.closeImage, Writer.stampHeader,
      FileHeader.store, Stream.contents, Bytes.overlay_eq_laid, Image.data_eq_take,
      Writer.writeMapList, mapListOf, MapEntry.mergeSort_le]
    decide +kernel
  obtain ⟨bytes, -, hread⟩ := Option.bind_eq_some_iff.mp hread
  obtain ⟨d, hd, hlinks⟩ := Option.map_eq_some_iff.mp hread
  obtain ⟨image, himage⟩ := exists_ofImage_of_read? hd
  exact ⟨image, d, himage, ofImage_navigation himage, congrArg Prod.fst hlinks,
    congrArg Prod.snd hlinks⟩

end Dex

end DexGraph
