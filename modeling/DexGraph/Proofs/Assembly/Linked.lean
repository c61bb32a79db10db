import DexGraph.Assembly.Items
import DexGraph.Proofs.Graph.Coherence
import DexGraph.Proofs.Graph.MethodOrder

/-!
# Notes and locators

Beside its references a graph has links that no image stores: every member notes the class data
that holds it, class data notes a class that has it, and a locator is kept for every method. A
graph is linked if all of them lead where they say. `Graph.Linked.registerMethods` says that this
is so again when new members have been attached and registered, and `Graph.Linked.belongTo` that it
stays so when members are claimed by a class.
-/

namespace DexGraph

namespace ClassData

variable {c : ClassData} {r : Ref .classData}

/-- The methods with their locators, in their order. -/
def located (c : ClassData) (r : Ref .classData) : List (MethodLocator × MethodItem) :=
  c.methodPlaces.map fun m => (⟨r, m.1.kind, m.1.position⟩, m.2)

theorem mem_located {l : MethodLocator} {m : MethodItem} :
    (l, m) ∈ c.located r ↔ l.classData = r ∧ (c.methods l.kind)[l.position]? = some m := by
  rw [located, List.mem_map]
  constructor
  · rintro ⟨⟨p, m'⟩, hmem, heq⟩
    cases heq
    exact ⟨rfl, mem_methodPlaces.mp hmem⟩
  · rintro ⟨rfl, hm⟩
    exact ⟨(⟨l.kind, l.position⟩, m), mem_methodPlaces.mpr hm, rfl⟩

end ClassData

namespace Graph

variable {g g' : Graph} {s t : Section}

/-! ## Changes of entities -/

theorem get?_congr (h : g'.entities s = g.entities s) (r : Ref s) : g'.get? r = g.get? r := by
  unfold get?
  rw [h]

theorem get?_modify_self (g : Graph) (r r' : Ref s) (f : s.Content → s.Content) :
    (g.modify r f).get? r' = if r' = r then (g.get? r').map f else g.get? r' := by
  unfold modify get? takeEntities
  simp only [entities_setEntities_self, Collection.modify, Collection.get?, Array.getElem?_modify,
    Ref.pos_inj, eq_comm]

theorem entities_modify_of_ne (g : Graph) (r : Ref s) (f : s.Content → s.Content) (h : t ≠ s) :
    (g.modify r f).entities t = g.entities t := by
  unfold modify takeEntities
  rw [entities_setEntities_of_ne _ _ (Ne.symm h), entities_setEntities_of_ne _ _ (Ne.symm h)]

theorem get?_modify_of_ne (g : Graph) (r : Ref s) (f : s.Content → s.Content) (h : t ≠ s)
    (r' : Ref t) : (g.modify r f).get? r' = g.get? r' := by
  unfold get?
  rw [entities_modify_of_ne g r f h]

theorem methodItems_modify (g : Graph) (r : Ref s) (f : s.Content → s.Content) :
    (g.modify r f).methodItems = g.methodItems := by
  unfold modify takeEntities
  cases s <;> rfl

theorem count_modify (g : Graph) (r : Ref s) (f : s.Content → s.Content) (t : Section) :
    (g.modify r f).count t = g.count t := by
  unfold count
  by_cases h : t = s
  · subst h
    unfold modify takeEntities
    rw [entities_setEntities_self]
    exact Array.size_modify
  · rw [entities_modify_of_ne g r f h]

theorem coherent_modify (hg : ∀ t, (g.entities t).Coherent) (r : Ref s)
    (f : s.Content → s.Content) (t : Section) : ((g.modify r f).entities t).Coherent := by
  by_cases h : t = s
  · subst h
    unfold modify takeEntities
    rw [entities_setEntities_self]
    exact (hg t).modify r f
  · rw [entities_modify_of_ne g r f h]
    exact hg t

/-! ## Registered methods -/

section Register

open Build (registerMethods)

variable {r : Ref .classData} {c : ClassData}

/-- Methods are registered in their order, and nothing else is changed. -/
theorem registerMethods_eq (hc : g.get? r = some c) : registerMethods r g =
    { g with
      methodItems := (c.located r).foldl (fun items m => items.insert m.2.method.slot m.1)
        g.methodItems } := by
  have hkind (kind : MethodKind) (g : Graph) : (c.methods kind).zipIdx.foldl
      (fun g m => g.registerMethod m.1.method.slot ⟨r, kind, m.2⟩) g = { g with
        methodItems := (c.methodPlacesOf kind).foldl
          (fun items m => items.insert m.2.method.slot ⟨r, m.1.kind, m.1.position⟩)
          g.methodItems } := by
    rw [← Array.foldl_toList, ClassData.methodPlacesOf, List.foldl_map, Array.toList_zipIdx]
    generalize (c.methods kind).toList.zipIdx = methods
    induction methods generalizing g with
    | nil => rfl
    | cons m rest ih =>
      rw [List.foldl_cons, List.foldl_cons, ih]
      rfl
  unfold registerMethods
  simp only [hc, hkind, ClassData.located, ClassData.methodPlaces, List.foldl_map,
    List.foldl_append]

/-- Where several methods are registered under an index the last of them is found. -/
theorem getElem?_foldl_insert (methods : List (MethodLocator × MethodItem))
    (items : Std.TreeMap UInt32 MethodLocator) (i : UInt32) :
    (methods.foldl (fun items m => items.insert m.2.method.slot m.1) items)[i]? =
      ((methods.reverse.find? (·.2.method.slot = i)).map Prod.fst).or items[i]? := by
  induction methods generalizing items with
  | nil => rfl
  | cons m rest ih =>
    rw [List.foldl_cons, ih, Std.TreeMap.getElem?_insert, List.reverse_cons, List.find?_append]
    simp only [Std.LawfulEqOrd.compare_eq_iff_eq]
    by_cases hslot : m.2.method.slot = i
    · cases rest.reverse.find? (·.2.method.slot = i) <;> simp [hslot]
    · cases rest.reverse.find? (·.2.method.slot = i) <;> simp [hslot]

theorem entities_registerMethods (r : Ref .classData) (g : Graph) (t : Section) :
    (registerMethods r g).entities t = g.entities t := by
  cases hc : g.get? r with
  | none =>
    unfold registerMethods
    simp only [hc]
  | some c =>
    rw [registerMethods_eq hc]
    cases t <;> rfl

theorem get?_registerMethods (r : Ref .classData) (g : Graph) (r' : Ref t) :
    (registerMethods r g).get? r' = g.get? r' := by
  unfold get?
  rw [entities_registerMethods]

theorem methodItems_registerMethods (hc : g.get? r = some c) (i : UInt32) :
    (registerMethods r g).methodItems[i]? =
      (((c.located r).reverse.find? (·.2.method.slot = i)).map Prod.fst).or g.methodItems[i]? := by
  rw [registerMethods_eq hc]
  exact getElem?_foldl_insert ..

/-- What is registered after the methods of a class have been: what was before, or one of them. -/
theorem of_methodItems_registerMethods (hc : g.get? r = some c) {i : UInt32} {l : MethodLocator}
    (h : (registerMethods r g).methodItems[i]? = some l) :
    g.methodItems[i]? = some l ∨
      ∃ m : MethodItem, (l, m) ∈ c.located r ∧ m.method.slot = i := by
  rw [methodItems_registerMethods hc] at h
  cases hfind : (c.located r).reverse.find? (·.2.method.slot = i) with
  | none =>
    rw [hfind] at h
    exact .inl h
  | some m =>
    rw [hfind] at h
    cases h
    exact .inr ⟨m.2, List.mem_reverse.mp (List.mem_of_find?_eq_some hfind), by
      simpa using List.find?_some hfind⟩

/-- An index stays registered when methods are, and theirs come to be. -/
theorem exists_methodItems_registerMethods (hc : g.get? r = some c) {i : UInt32}
    (h : (∃ l, g.methodItems[i]? = some l) ∨ ∃ m ∈ c.located r, m.2.method.slot = i) :
    ∃ l, (registerMethods r g).methodItems[i]? = some l := by
  rw [methodItems_registerMethods hc]
  cases hfind : (c.located r).reverse.find? (·.2.method.slot = i) with
  | some m => exact ⟨m.1, rfl⟩
  | none =>
    refine h.resolve_right ?_
    rintro ⟨m, hm, hslot⟩
    simpa [hslot] using List.find?_eq_none.mp hfind m (List.mem_reverse.mpr hm)

end Register

/-! ## Members that are new -/

section Attached

variable {r : Ref .classData} {c : ClassData}

/-- Class data that has been added and attached. -/
theorem get?_attach
    (hnew : ∀ r' : Ref .classData, g'.get? r' = if r' = r then some c else g.get? r')
    (r' : Ref .classData) : (g'.modify r fun c => c.attach r).get? r' =
      if r' = r then some (c.attach r) else g.get? r' := by
  rw [get?_modify_self, hnew]
  by_cases hr : r' = r
  · simp [hr]
  · simp [hr]

theorem get?_registerMethods_attach
    (hnew : ∀ r' : Ref .classData, g'.get? r' = if r' = r then some c else g.get? r')
    (r' : Ref .classData) : (Build.registerMethods r (g'.modify r fun c => c.attach r)).get? r' =
      if r' = r then some (c.attach r) else g.get? r' :=
  (get?_registerMethods ..).trans (get?_attach hnew r')

theorem get?_registerMethods_attach_of_ne (h : t ≠ .classData) (r' : Ref t) :
    (Build.registerMethods r (g'.modify r fun c => c.attach r)).get? r' = g'.get? r' :=
  (get?_registerMethods ..).trans (get?_modify_of_ne g' r _ h r')

end Attached

/-! ## Linked graphs -/

/-- Members note the class data that holds them, class data notes a class that has it, and every
method that is registered is where its locator says. -/
structure Linked (g : Graph) : Prop where
  members : ∀ (r : Ref .classData) (c : ClassData), g.get? r = some c →
    (∀ f ∈ c.allFields, f.classData = some r) ∧ ∀ m ∈ c.allMethods, m.classData = some r
  owners : ∀ (r : Ref .classData) (c : ClassData) (d : Ref .classDef), g.get? r = some c →
    c.classDef = some d → ∃ x : ClassDef, g.get? d = some x ∧ x.classData = some r
  locators : ∀ (i : UInt32) (l : MethodLocator), g.methodItems[i]? = some l →
    ∃ m, g.methodAt? l = some m ∧ m.method.slot = i

theorem methodAt?_eq_some_iff {l : MethodLocator} {m : MethodItem} :
    g.methodAt? l = some m ↔
      ∃ c : ClassData, g.get? l.classData = some c ∧ (c.methods l.kind)[l.position]? = some m :=
  Option.bind_eq_some_iff

/-- A graph stays linked when class data and registered methods stay as they are and no class is
lost. -/
theorem Linked.of_same (h : g.Linked) (hdata : ∀ r : Ref .classData, g'.get? r = g.get? r)
    (hdef : ∀ (d : Ref .classDef) x, g.get? d = some x → g'.get? d = some x)
    (hitems : g'.methodItems = g.methodItems) : g'.Linked := by
  refine ⟨fun r c hc => ?_, fun r c d hc hd => ?_, fun i l hl => ?_⟩
  · rw [hdata] at hc
    exact h.members r c hc
  · rw [hdata] at hc
    obtain ⟨x, hx, hown⟩ := h.owners r c d hc hd
    exact ⟨x, hdef d x hx, hown⟩
  · rw [hitems] at hl
    obtain ⟨m, hm, hslot⟩ := h.locators i l hl
    obtain ⟨c, hc, hk⟩ := methodAt?_eq_some_iff.mp hm
    exact ⟨m, methodAt?_eq_some_iff.mpr ⟨c, (hdata _).trans hc, hk⟩, hslot⟩

/-- A graph stays linked when members without notes have been added, attached and registered. -/
theorem Linked.registerMethods (h : g.Linked) {r : Ref .classData} {c : ClassData}
    (hnew : ∀ r' : Ref .classData, g'.get? r' = if r' = r then some c else g.get? r')
    (hfresh : g.get? r = none) (hdef : g'.entities .classDef = g.entities .classDef)
    (hitems : g'.methodItems = g.methodItems) (hc : c.classDef = none) :
    (Build.registerMethods r (g'.modify r fun c => c.attach r)).Linked := by
  have hget := get?_registerMethods_attach hnew
  have hgetDef (d : Ref .classDef) :
      (Build.registerMethods r (g'.modify r fun c => c.attach r)).get? d = g.get? d :=
    (get?_registerMethods_attach_of_ne (by decide) d).trans (get?_congr hdef d)
  refine ⟨fun r' c' hc' => ?_, fun r' c' d hc' hd => ?_, fun i l hl => ?_⟩
  · rw [hget] at hc'
    split at hc'
    · rename_i hr
      cases hc'
      subst hr
      constructor
      · intro f hf
        simp only [ClassData.allFields, ClassData.attach, Array.mem_append, Array.mem_map] at hf
        rcases hf with ⟨f', -, rfl⟩ | ⟨f', -, rfl⟩ <;> rfl
      · intro m hm
        simp only [ClassData.allMethods, ClassData.attach, Array.mem_append, Array.mem_map] at hm
        rcases hm with ⟨m', -, rfl⟩ | ⟨m', -, rfl⟩ <;> rfl
    · exact h.members r' c' hc'
  · rw [hget] at hc'
    split at hc'
    · cases hc'
      rw [show (c.attach r).classDef = c.classDef from rfl, hc] at hd
      cases hd
    · obtain ⟨x, hx, hown⟩ := h.owners r' c' d hc' hd
      exact ⟨x, (hgetDef d).trans hx, hown⟩
  · have hself := (get?_attach hnew r).trans (if_pos rfl)
    rcases of_methodItems_registerMethods hself hl with hl | ⟨m, hm, hslot⟩
    · rw [methodItems_modify, hitems] at hl
      obtain ⟨m, hm, hslot⟩ := h.locators i l hl
      obtain ⟨c', hc', hk⟩ := methodAt?_eq_some_iff.mp hm
      refine ⟨m, methodAt?_eq_some_iff.mpr ⟨c', ?_, hk⟩, hslot⟩
      rw [hget, if_neg, hc']
      intro hr
      rw [hr, hfresh] at hc'
      cases hc'
    · obtain ⟨hr, hm⟩ := ClassData.mem_located.mp hm
      exact ⟨m, methodAt?_eq_some_iff.mpr ⟨_, (hget l.classData).trans (if_pos hr), hm⟩, hslot⟩

/-- A graph stays linked when members are told a class that has them. -/
theorem Linked.belongTo (h : g.Linked) {r : Ref .classData} {d : Ref .classDef} {x : ClassDef}
    (hd : g.get? d = some x) (hx : x.classData = some r) :
    (g.modify r fun c => c.belongTo d).Linked := by
  have hget (r' : Ref .classData) : (g.modify r fun c => c.belongTo d).get? r' =
      if r' = r then (g.get? r').map fun c => c.belongTo d else g.get? r' :=
    get?_modify_self g r r' _
  have hgetDef (d' : Ref .classDef) :
      (g.modify r fun c => c.belongTo d).get? d' = g.get? d' :=
    get?_modify_of_ne g r _ (by decide) d'
  have hback {r' : Ref .classData} {c' : ClassData}
      (hc' : (g.modify r fun c => c.belongTo d).get? r' = some c') :
      g.get? r' = some c' ∨ r' = r ∧ ∃ c, g.get? r' = some c ∧ c' = c.belongTo d := by
    rw [hget] at hc'
    split at hc'
    · rename_i hr
      obtain ⟨c, hc, rfl⟩ := Option.map_eq_some_iff.mp hc'
      exact .inr ⟨hr, c, hc, rfl⟩
    · exact .inl hc'
  refine ⟨fun r' c' hc' => ?_, fun r' c' d' hc' hd' => ?_, fun i l hl => ?_⟩
  · rcases hback hc' with hc' | ⟨-, c, hc, rfl⟩
    · exact h.members r' c' hc'
    · exact h.members r' c hc
  · simp only [hgetDef]
    rcases hback hc' with hc' | ⟨rfl, c, hc, rfl⟩
    · exact h.owners r' c' d' hc' hd'
    · cases hown : c.classDef with
      | none =>
        simp only [ClassData.belongTo, hown] at hd'
        obtain rfl : d = d' := Option.some.inj hd'
        exact ⟨x, hd, hx⟩
      | some d'' =>
        simp only [ClassData.belongTo, hown] at hd'
        exact h.owners r' c d' hc (hown.trans hd')
  · rw [methodItems_modify] at hl
    obtain ⟨m, hm, hslot⟩ := h.locators i l hl
    obtain ⟨c, hc, hk⟩ := methodAt?_eq_some_iff.mp hm
    by_cases hr : l.classData = r
    · refine ⟨m, methodAt?_eq_some_iff.mpr ⟨c.belongTo d, ?_, hk⟩, hslot⟩
      rw [hget, if_pos hr, hc]
      rfl
    · exact ⟨m, methodAt?_eq_some_iff.mpr ⟨c, by rw [hget, if_neg hr, hc], hk⟩, hslot⟩

/-! ## Graphs of which all methods are registered -/

/-- The graph is linked, and a method is registered under the index of every method of a class. Of
several methods with one index only one can be. -/
structure Registered (g : Graph) : Prop where
  linked : g.Linked
  indices : ∀ (l : MethodLocator) (m : MethodItem), g.methodAt? l = some m →
    ∃ l', g.methodItems[m.method.slot]? = some l'

/-- The methods stay where they are if the class data does. -/
theorem methodAt?_of_get? {l : MethodLocator} {m : MethodItem} (h : g'.methodAt? l = some m)
    (hback : ∀ c' : ClassData, g'.get? l.classData = some c' →
      ∃ c : ClassData, g.get? l.classData = some c ∧ c'.methods l.kind = c.methods l.kind) :
    g.methodAt? l = some m := by
  obtain ⟨c', hc', hk⟩ := methodAt?_eq_some_iff.mp h
  obtain ⟨c, hc, hsame⟩ := hback c' hc'
  exact methodAt?_eq_some_iff.mpr ⟨c, hc, hsame ▸ hk⟩

theorem Registered.of_same (h : g.Registered)
    (hdata : ∀ r : Ref .classData, g'.get? r = g.get? r)
    (hdef : ∀ (d : Ref .classDef) x, g.get? d = some x → g'.get? d = some x)
    (hitems : g'.methodItems = g.methodItems) : g'.Registered := by
  refine ⟨h.linked.of_same hdata hdef hitems, fun l m hm => ?_⟩
  rw [hitems]
  exact h.indices l m (methodAt?_of_get? hm fun c hc => ⟨c, (hdata _).symm.trans hc, rfl⟩)

theorem Registered.registerMethods (h : g.Registered) {r : Ref .classData} {c : ClassData}
    (hnew : ∀ r' : Ref .classData, g'.get? r' = if r' = r then some c else g.get? r')
    (hfresh : g.get? r = none) (hdef : g'.entities .classDef = g.entities .classDef)
    (hitems : g'.methodItems = g.methodItems) (hc : c.classDef = none) :
    (Build.registerMethods r (g'.modify r fun c => c.attach r)).Registered := by
  refine ⟨h.linked.registerMethods hnew hfresh hdef hitems hc, fun l m hm => ?_⟩
  have hself := (get?_attach hnew r).trans (if_pos rfl)
  refine exists_methodItems_registerMethods hself ?_
  obtain ⟨c', hc', hk⟩ := methodAt?_eq_some_iff.mp hm
  rw [get?_registerMethods_attach hnew] at hc'
  by_cases hr : l.classData = r
  · rw [if_pos hr] at hc'
    cases hc'
    exact .inr ⟨(l, m), ClassData.mem_located.mpr ⟨hr, hk⟩, rfl⟩
  · rw [if_neg hr] at hc'
    rw [methodItems_modify, hitems]
    exact .inl (h.indices l m (methodAt?_eq_some_iff.mpr ⟨c', hc', hk⟩))

theorem Registered.belongTo (h : g.Registered) {r : Ref .classData} {d : Ref .classDef}
    {x : ClassDef} (hd : g.get? d = some x) (hx : x.classData = some r) :
    (g.modify r fun c => c.belongTo d).Registered := by
  refine ⟨h.linked.belongTo hd hx, fun l m hm => ?_⟩
  rw [methodItems_modify]
  refine h.indices l m (methodAt?_of_get? hm fun c' hc' => ?_)
  rw [get?_modify_self] at hc'
  split at hc'
  · obtain ⟨c, hc, rfl⟩ := Option.map_eq_some_iff.mp hc'
    exact ⟨c, hc, by cases l.kind <;> rfl⟩
  · exact ⟨c', hc', rfl⟩

end Graph

end DexGraph
