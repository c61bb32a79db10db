import DexGraph.CodeOrder
import DexGraph.Proofs.Graph.MethodOrder
import DexGraph.Proofs.Graph.Reordering
import DexGraph.Proofs.Writing.CodeOrder
import DexGraph.Proofs.Writing.Geometry

/-!
# Bodies in class order

A body is used where a method of a class has it that is not native. `Graph.codeUses` lists all uses
in the order of the class table and of the methods of a class, and laying code out in class order
puts the bodies in the order of their first use. `Graph.orderCodeByClass_order` says what the order
of the bodies is then, and that an image that is laid out anew has them at ascending offsets.
-/

namespace DexGraph

/-- A place where a body is used: the index of the class in its table, and the place of the method
in the class. -/
structure CodeUse where
  index : Nat
  method : MethodPlace
  deriving DecidableEq, Repr

namespace CodeUse

/-- Uses come in the order of the classes, those of one class in the order of its methods. -/
def Before (u v : CodeUse) : Prop :=
  u.index < v.index ∨ u.index = v.index ∧ u.method.Before v.method

end CodeUse

namespace Graph

variable {g : Graph} {u : CodeUse} {r r' : Ref .codeItem}

/-- The class of a use has class data, and there the method, which has the body and is not native. -/
def UsesAt (g : Graph) (u : CodeUse) (r : Ref .codeItem) : Prop :=
  ∃ (x : ClassDef) (c : Ref .classData) (members : ClassData) (m : MethodItem),
    g.classDefs.items[u.index]? = some x ∧ x.classData = some c ∧ g.get? c = some members ∧
      (members.methods u.method.kind)[u.method.position]? = some m ∧ m.isNative = false ∧
      m.code = some r

/-- The body is used before the other one is. -/
def UsedEarlier (g : Graph) (r r' : Ref .codeItem) : Prop :=
  ∃ u, g.UsesAt u r ∧ ∀ u', g.UsesAt u' r' → u.Before u'

/-! ## The uses in their order -/

/-- The places where a class uses bodies, with the bodies. -/
def codeUsesOf (g : Graph) (index : Nat) (x : ClassDef) : List (CodeUse × Ref .codeItem) :=
  match x.classData.bind g.get? with
  | some members => members.methodPlaces.filterMap fun m => m.2.body?.map (⟨index, m.1⟩, ·)
  | none => []

/-- The places where bodies are used, with the bodies. -/
def codeUses (g : Graph) : List (CodeUse × Ref .codeItem) :=
  g.classDefs.items.toList.zipIdx.flatMap fun x => g.codeUsesOf x.2 x.1

theorem body?_eq_some_iff {m : MethodItem} :
    m.body? = some r ↔ m.isNative = false ∧ m.code = some r := by
  unfold MethodItem.body?
  cases m.isNative <;> simp

theorem mem_codeUsesOf {i : Nat} {x : ClassDef} :
    (u, r) ∈ g.codeUsesOf i x ↔ u.index = i ∧ ∃ c members m, x.classData = some c ∧
      g.get? c = some members ∧ (members.methods u.method.kind)[u.method.position]? = some m ∧
      m.isNative = false ∧ m.code = some r := by
  have hbind (members : ClassData) : x.classData.bind g.get? = some members ↔
      ∃ c, x.classData = some c ∧ g.get? c = some members := Option.bind_eq_some_iff
  unfold codeUsesOf
  constructor
  · intro h
    split at h
    · rename_i members hmembers
      obtain ⟨c, hc, hget⟩ := (hbind members).mp hmembers
      obtain ⟨⟨p, m⟩, hm, hbody⟩ := List.mem_filterMap.mp h
      obtain ⟨r', hr', heq⟩ := Option.map_eq_some_iff.mp hbody
      cases heq
      exact ⟨rfl, c, members, m, hc, hget, ClassData.mem_methodPlaces.mp hm,
        body?_eq_some_iff.mp hr'⟩
    · cases h
  · rintro ⟨rfl, c, members, m, hc, hget, hm, hbody⟩
    rw [(hbind members).mpr ⟨c, hc, hget⟩]
    refine List.mem_filterMap.mpr ⟨(u.method, m), ClassData.mem_methodPlaces.mpr hm, ?_⟩
    rw [body?_eq_some_iff.mpr hbody]
    rfl

theorem mem_codeUses : (u, r) ∈ g.codeUses ↔ g.UsesAt u r := by
  unfold codeUses UsesAt
  rw [List.mem_flatMap]
  constructor
  · rintro ⟨⟨x, i⟩, hx, hu⟩
    obtain ⟨rfl, c, members, m, hrest⟩ := mem_codeUsesOf.mp hu
    exact ⟨x, c, members, m, by simpa using List.mem_zipIdx_iff_getElem?.mp hx, hrest⟩
  · rintro ⟨x, c, members, m, hx, hrest⟩
    exact ⟨(x, u.index), List.mem_zipIdx_iff_getElem?.mpr (by simpa using hx),
      mem_codeUsesOf.mpr ⟨rfl, c, members, m, hrest⟩⟩

theorem pairwise_codeUsesOf (g : Graph) (i : Nat) (x : ClassDef) :
    (g.codeUsesOf i x).Pairwise fun u v => u.1.Before v.1 := by
  unfold codeUsesOf
  split
  · refine ClassData.pairwise_methodPlaces.filterMap _ ?_
    rintro ⟨p, m⟩ ⟨p', m'⟩ hbefore ⟨u, r⟩ hu ⟨u', r'⟩ hu'
    obtain ⟨_, -, heq⟩ := Option.map_eq_some_iff.mp hu
    obtain ⟨_, -, heq'⟩ := Option.map_eq_some_iff.mp hu'
    cases heq
    cases heq'
    exact .inr ⟨rfl, hbefore⟩
  · exact .nil

theorem pairwise_codeUses (g : Graph) : g.codeUses.Pairwise fun u v => u.1.Before v.1 := by
  have hindices : g.classDefs.items.toList.zipIdx.Pairwise fun x y => x.2 < y.2 := by
    rw [← List.pairwise_map (f := Prod.snd) (R := (· < ·)), List.zipIdx_map_snd]
    exact List.pairwise_lt_range'
  rw [codeUses, List.pairwise_flatMap]
  refine ⟨fun x _ => g.pairwise_codeUsesOf x.2 x.1, hindices.imp ?_⟩
  rintro ⟨x, i⟩ ⟨x', i'⟩ hlt ⟨u, r⟩ hu ⟨u', r'⟩ hu'
  have hi := (mem_codeUsesOf.mp hu).1
  have hi' := (mem_codeUsesOf.mp hu').1
  exact .inl (by simp only [hi, hi', hlt])

theorem toList_codeOfClass (g : Graph) (i : Nat) (x : ClassDef) :
    (g.codeOfClass x).toList = (g.codeUsesOf i x).map Prod.snd := by
  unfold codeOfClass codeUsesOf
  cases x.classData.bind g.get? with
  | some members =>
    simp only [Array.toList_filterMap]
    rw [← ClassData.map_snd_methodPlaces, List.filterMap_map, List.map_filterMap]
    refine List.filterMap_congr fun m _ => ?_
    cases hbody : m.2.body? <;> simp [hbody]
  | none => rfl

/-- The bodies come in the order of their uses. -/
theorem toList_codeInClassOrder (g : Graph) :
    g.codeInClassOrder.toList = g.codeUses.map Prod.snd := by
  unfold codeInClassOrder codeUses
  rw [Array.toList_flatMap, List.map_flatMap]
  simp only [← toList_codeOfClass]
  conv => lhs; rw [← List.zipIdx_map_fst 0 g.classDefs.items.toList]
  rw [List.flatMap_map]

theorem mem_codeInClassOrder : r ∈ g.codeInClassOrder ↔ ∃ u, g.UsesAt u r := by
  rw [← Array.mem_toList_iff, toList_codeInClassOrder, List.mem_map]
  constructor
  · rintro ⟨⟨u, _⟩, hu, rfl⟩
    exact ⟨u, mem_codeUses.mp hu⟩
  · rintro ⟨u, hu⟩
    exact ⟨(u, r), mem_codeUses.mpr hu, rfl⟩

theorem Sound.has_of_usesAt (hg : g.Sound) (h : g.UsesAt u r) : g.Has .codeItem r := by
  obtain ⟨x, c, members, m, -, -, hget, hm, -, hcode⟩ := h
  have hmem : m ∈ members.allMethods := by
    have hm := Array.mem_of_getElem? hm
    unfold ClassData.allMethods
    cases hkind : u.method.kind <;> rw [hkind] at hm
    · exact Array.mem_append_left _ hm
    · exact Array.mem_append_right _ hm
  exact ((hg.refs .classData c members hget).2 m hmem).2 r hcode

/-! ## The order of the bodies -/

/-- The bodies that classes use, in the order of their first use. -/
def bodiesByFirstUse (g : Graph) : List (Ref .codeItem) :=
  g.codeInClassOrder.toList.eraseDups

theorem mem_bodiesByFirstUse : r ∈ g.bodiesByFirstUse ↔ ∃ u, g.UsesAt u r := by
  rw [bodiesByFirstUse, List.mem_eraseDups, Array.mem_toList_iff, mem_codeInClassOrder]

theorem pairwise_bodiesByFirstUse (g : Graph) : g.bodiesByFirstUse.Pairwise g.UsedEarlier := by
  rw [bodiesByFirstUse, toList_codeInClassOrder]
  refine (pairwise_eraseDups_map g.pairwise_codeUses).imp ?_
  rintro r r' ⟨⟨u, _⟩, hu, rfl, hlater⟩
  exact ⟨u, mem_codeUses.mp hu, fun u' hu' => hlater (u', r') (mem_codeUses.mpr hu') rfl⟩

theorem toList_order_orderCodeByClass (hg : g.Sound) :
    g.orderCodeByClass.codeItems.order.toList =
      g.bodiesByFirstUse ++ g.codeItems.order.toList.filter (· ∉ g.bodiesByFirstUse) := by
  have hnamed : g.codeItems.firstNamed g.codeInClassOrder.toList = g.bodiesByFirstUse := by
    unfold Collection.firstNamed bodiesByFirstUse
    rw [List.filter_eq_self.mpr]
    intro r hr
    obtain ⟨u, hu⟩ := mem_codeInClassOrder.mp (Array.mem_toList_iff.mp hr)
    exact decide_eq_true (hg.has_of_usesAt hu)
  have horder := Collection.toList_order_reorder (hg.coherent .codeItem) g.codeInClassOrder
  refine horder.trans (congrArg₂ _ hnamed (List.filter_congr fun r _ => ?_))
  have hiff : r ∈ g.codeInClassOrder ↔ r ∈ g.bodiesByFirstUse := by
    rw [mem_bodiesByFirstUse, mem_codeInClassOrder]
  simpa using hiff

/-- The order of the bodies does not matter for what a graph refers to. -/
theorem Sound.reorder_code (hg : g.Sound) (named : Array (Ref .codeItem)) :
    (g.reorder .codeItem named).Sound where
  coherent s := by
    cases s with
    | codeItem => exact (hg.coherent .codeItem).reorder named
    | _ => exact hg.coherent _
  refs s r x hx := by
    rw [get?_reorder_code] at hx
    refine (hg.refs s r x hx).mono fun t r' hr' => ?_
    rw [has_iff_exists] at hr' ⊢
    simpa only [get?_reorder_code] using hr'

end Graph

/-- Bodies have ascending offsets in the order in which they are listed. -/
theorem FreshImage.pairwise_codeItems {g : Graph} {l : Layout} {image : Bytes} {blocks : List Block}
    (h : FreshImage g l image blocks) (hg : g.Sound) :
    g.codeItems.order.toList.Pairwise fun r r' => ∀ o o', (l.place r).offset = some o →
      (l.place r').offset = some o' → o.toNat < o'.toNat := by
  rw [List.pairwise_iff_forall_sublist]
  intro r r' hlists o o' ho ho'
  exact h.offset_lt_of_size_pos hg rfl hlists ho ho' (h.size_pos rfl ho fun _ _ => trivial)

namespace Graph

/-- Laying code out in class order changes the order of the bodies alone, and lists each of them
once: first those that classes use, in the order of their first use, then the others in the order
they had. A second time it changes nothing. If the graph is then laid out anew, exactly the bodies
that methods use are placed, at offsets that ascend in this order. -/
theorem orderCodeByClass_order (g : Graph) (hg : g.Sound) :
    ∃ first rest : List (Ref .codeItem),
      g.orderCodeByClass =
        { g with codeItems := { g.codeItems with order := (first ++ rest).toArray } } ∧
      ((first ++ rest).map Ref.pos).Perm (List.range g.codeItems.size) ∧
      (∀ r, r ∈ first ↔ ∃ u, g.UsesAt u r) ∧
      first.Pairwise g.UsedEarlier ∧
      rest = g.codeItems.order.toList.filter (· ∉ first) ∧
      g.orderCodeByClass.orderCodeByClass = g.orderCodeByClass ∧
      ∀ layout image l, g.orderCodeByClass.write .relayout layout = (.ok image, l) →
        (∀ r, (l.place r).hasOffset ↔ g.Has .codeItem r ∧ g.UsesBody r) ∧
        (first ++ rest).Pairwise fun r r' => ∀ o o', (l.place r).offset = some o →
          (l.place r').offset = some o' → o.toNat < o'.toNat := by
  have hlist := toList_order_orderCodeByClass hg
  have hsound : g.orderCodeByClass.Sound := hg.reorder_code _
  refine ⟨g.bodiesByFirstUse, _, ?_, ?_, fun r => mem_bodiesByFirstUse,
    g.pairwise_bodiesByFirstUse, rfl, ?_, fun layout image l hwrite => ⟨fun r => ?_, ?_⟩⟩
  · rw [← hlist]
    rfl
  · rw [← hlist]
    exact (hsound.coherent .codeItem).order_perm
  · have hagain := Collection.reorder_reorder (hg.coherent .codeItem) g.codeInClassOrder
    exact congrArg (fun c => { g with codeItems := c }) hagain
  · obtain ⟨blocks, himage⟩ := write_relayout hsound hwrite
    have hiff := himage.assigned_iff .codeItem rfl r
    rw [Place.hasOffset, Option.isSome_iff_exists]
    exact hiff
  · rw [← hlist]
    obtain ⟨blocks, himage⟩ := write_relayout hsound hwrite
    exact himage.pairwise_codeItems hsound

/-- A graph of which two classes share their class data, and two methods a body. One body belongs to
a native method alone, and one to no method. -/
def sharedBodies : Graph :=
  { empty with
    stringDatas := .ofItems [⟨1, #[0x56]⟩, ⟨1, #[0x66]⟩]
    stringIds := .ofItems [⟨⟨0⟩⟩, ⟨⟨1⟩⟩]
    typeIds := .ofItems [⟨⟨0⟩⟩]
    protoIds := .ofItems [⟨⟨0⟩, ⟨0⟩, none⟩]
    methodIds := .ofItems (List.replicate 5 ⟨⟨0⟩, ⟨0⟩, ⟨1⟩⟩)
    classDefs := .ofItems ([none, some ⟨0⟩, some ⟨0⟩, some ⟨1⟩].map fun c =>
      ⟨⟨0⟩, ⟨1⟩, none, none, none, none, c, none⟩)
    codeItems := .ofItems (List.replicate 5 ⟨1, 0, 0, none, #[0x000E], #[], #[]⟩)
    classDatas := .ofItems
      [⟨none, #[], #[], #[⟨⟨0x100⟩, ⟨0⟩, some ⟨0⟩, none⟩, ⟨⟨8⟩, ⟨1⟩, some ⟨3⟩, none⟩],
        #[⟨⟨1⟩, ⟨2⟩, some ⟨1⟩, none⟩]⟩,
      ⟨none, #[], #[], #[⟨⟨8⟩, ⟨3⟩, some ⟨3⟩, none⟩], #[⟨⟨1⟩, ⟨4⟩, some ⟨2⟩, none⟩]⟩] }

theorem sharedBodies_sound : sharedBodies.Sound where
  coherent s := by
    cases s with
    | stringData | stringId | typeId | protoId | methodId | classDef | classData | codeItem =>
      exact Collection.coherent_ofItems (by decide)
    | _ => exact Collection.coherent_empty
  refs s r x h := by
    have hmem := Array.mem_of_getElem? h
    cases s with
    | stringData => trivial
    | stringId | typeId | protoId | methodId | classDef | classData | codeItem =>
      simp [sharedBodies, entities] at hmem
      rcases hmem with rfl | rfl | rfl <;> unfold Section.AllRefs <;> decide
    | _ => simp [sharedBodies, entities, empty, withMagic] at hmem

theorem orderCodeByClass_order_sharedBodies : sharedBodies.Sound ∧
    sharedBodies.orderCodeByClass.codeItems.order.toList = [⟨3⟩, ⟨1⟩, ⟨2⟩] ++ [⟨0⟩, ⟨4⟩] ∧
    ∃ image l, sharedBodies.orderCodeByClass.write .relayout .empty = (.ok image, l) ∧
      (∀ r, (l.place r).hasOffset ↔
        sharedBodies.Has .codeItem r ∧ sharedBodies.UsesBody r) ∧
      ([⟨3⟩, ⟨1⟩, ⟨2⟩] ++ [⟨0⟩, ⟨4⟩] : List (Ref .codeItem)).Pairwise fun r r' => ∀ o o',
        (l.place r).offset = some o → (l.place r').offset = some o' → o.toNat < o'.toNat := by
  have hok : (sharedBodies.orderCodeByClass.write .relayout .empty).1.isOk = true := by
    simp only [Graph.write, Writer.writeImage, Writer.closeImage, Writer.stampHeader,
      FileHeader.store, Stream.contents, Bytes.overlay_eq_laid, Writer.writeMapList, mapListOf,
      MapEntry.mergeSort_le]
    decide +kernel
  obtain ⟨image, l, hwrite⟩ := exists_of_isOk hok
  have horder : sharedBodies.orderCodeByClass.codeItems.order.toList =
      [⟨3⟩, ⟨1⟩, ⟨2⟩] ++ [⟨0⟩, ⟨4⟩] := by decide
  obtain ⟨first, rest, hgraph, -, -, -, -, -, hlaid⟩ :=
    orderCodeByClass_order sharedBodies sharedBodies_sound
  have hlist : first ++ rest = [⟨3⟩, ⟨1⟩, ⟨2⟩] ++ [⟨0⟩, ⟨4⟩] := by
    rw [← horder, hgraph]
  exact ⟨sharedBodies_sound, horder, image, l, hwrite, hlist ▸ hlaid .empty image l hwrite⟩

end Graph

end DexGraph
