import DexGraph.Proofs.Graph.References

/-!
# Coherent collections

Every way of making and changing a collection keeps it coherent: adding an entity, changing one,
and laying the collection out in another order (`Collection.Coherent.reorder`).
-/

namespace DexGraph

namespace Collection

variable {s : Section} {c : Collection s}

@[simp] theorem items_empty : (∅ : Collection s).items = #[] := rfl

@[simp] theorem size_empty : (∅ : Collection s).size = 0 := rfl

theorem coherent_empty : (∅ : Collection s).Coherent where
  size_lt := by simp
  nodup_order := .nil
  mem_order_iff r := by
    change r ∈ (#[] : Array (Ref s)) ↔ r.pos < 0
    simp

theorem get?_add (h : c.size < 2 ^ 32) (x : s.Content) (r : Ref s) :
    (c.add x).2.get? r = if r = (c.add x).1 then some x else c.get? r := by
  have hpos : (Ref.ofPos c.items.size : Ref s).pos = c.items.size := Ref.pos_ofPos h
  simp only [add, get?, Array.getElem?_push, ← Ref.pos_inj, hpos]

@[simp] theorem size_add (x : s.Content) : (c.add x).2.size = c.size + 1 :=
  Array.size_push ..

theorem Coherent.add (h : c.Coherent) (hsize : c.size + 1 < 2 ^ 32) (x : s.Content) :
    (c.add x).2.Coherent where
  size_lt := by rwa [size_add]
  nodup_order := by
    change (c.order.push (.ofPos c.size)).toList.Nodup
    rw [Array.toList_push, List.nodup_append]
    refine ⟨h.nodup_order, List.nodup_singleton _, ?_⟩
    intro r hr r' hr'
    rw [List.mem_singleton] at hr'
    have hlt := (h.mem_order_iff r).mp (Array.mem_toList_iff.mp hr)
    rw [hr', Ne, ← Ref.pos_inj, Ref.pos_ofPos h.size_lt]
    omega
  mem_order_iff r := by
    change r ∈ c.order.push (.ofPos c.size) ↔ _
    rw [Array.mem_push, h.mem_order_iff, ← Ref.pos_inj, Ref.pos_ofPos h.size_lt, size_add]
    omega

theorem Coherent.modify (h : c.Coherent) (r : Ref s) (f : s.Content → s.Content) :
    (c.modify r f).Coherent := by
  have hsize : (c.modify r f).size = c.size := by simp [Collection.modify, size]
  exact ⟨hsize ▸ h.size_lt, h.nodup_order, fun r => hsize ▸ h.mem_order_iff r⟩

/-- The order lists every slot once. -/
theorem Coherent.order_perm (h : c.Coherent) :
    (c.order.toList.map Ref.pos).Perm (List.range c.size) := by
  rw [List.perm_ext_iff_of_nodup (List.Nodup.map (fun _ _ => Ref.pos_inj.mp) h.nodup_order)
    List.nodup_range]
  intro i
  simp only [List.mem_map, Array.mem_toList_iff, h.mem_order_iff, List.mem_range]
  constructor
  · rintro ⟨r, hr, rfl⟩
    exact hr
  · intro hi
    have hofPos : (Ref.ofPos i : Ref s).pos = i := Ref.pos_ofPos (Nat.lt_trans hi h.size_lt)
    exact ⟨.ofPos i, hofPos.symm ▸ hi, hofPos⟩

theorem Coherent.size_order (h : c.Coherent) : c.order.size = c.size := by
  simpa using h.order_perm.length_eq

/-! ## Order -/

namespace Ordering

/-- The slots that are marked are those of the references in the order, each of which comes
once. -/
structure Valid (o : Ordering s) (count : Nat) : Prop where
  size_eq : o.placed.size = count
  nodup : o.order.toList.Nodup
  mem_iff : ∀ r, r ∈ o.order ↔ o.placed[r.pos]? = some true

variable {o : Ordering s} {count : Nat}

theorem valid_start (count : Nat) : (start count : Ordering s).Valid count where
  size_eq := Array.size_replicate ..
  nodup := .nil
  mem_iff r := by
    simp only [start, Array.getElem?_replicate]
    split <;> simp

theorem Valid.isOpen_iff (h : o.Valid count) (r : Ref s) :
    o.isOpen r = true ↔ r.pos < count ∧ r ∉ o.order := by
  rw [isOpen, beq_iff_eq, h.mem_iff, ← h.size_eq]
  by_cases hr : r.pos < o.placed.size
  · rw [Array.getElem?_eq_getElem hr]
    cases o.placed[r.pos] <;> simp [hr]
  · simp [hr]

theorem Valid.place (h : o.Valid count) (r : Ref s) :
    (o.place r).Valid count ∧ ∀ r', r' ∈ (o.place r).order ↔ r' ∈ o.order ∨ r' = r ∧ r.pos < count := by
  unfold Ordering.place
  by_cases hopen : o.isOpen r = true
  · obtain ⟨hlt, hnew⟩ := (h.isOpen_iff r).mp hopen
    rw [if_pos hopen]
    have hmem (r' : Ref s) : r' ∈ o.order.push r ↔ r' ∈ o.order ∨ r' = r ∧ r.pos < count := by
      simp [hlt]
    refine ⟨⟨?_, ?_, fun r' => ?_⟩, hmem⟩
    · rw [Array.size_setIfInBounds, h.size_eq]
    · rw [Array.toList_push, List.nodup_append]
      refine ⟨h.nodup, List.nodup_singleton _, ?_⟩
      rintro r' hr' _ hr rfl
      rw [List.mem_singleton] at hr
      exact hnew (hr ▸ Array.mem_toList_iff.mp hr')
    · rw [hmem, h.mem_iff, Array.getElem?_setIfInBounds, h.size_eq, if_pos hlt, ← Ref.pos_inj]
      constructor
      · rintro (h' | ⟨hpos, -⟩)
        · split
          · rfl
          · exact h'
        · rw [if_pos hpos.symm]
      · intro h'
        split at h'
        · rename_i hpos
          exact .inr ⟨hpos.symm, hlt⟩
        · exact .inl h'
  · rw [if_neg hopen]
    refine ⟨h, fun r' => ⟨.inl, ?_⟩⟩
    rintro (h' | ⟨rfl, hlt⟩)
    · exact h'
    · by_contra hnew
      exact hopen ((h.isOpen_iff r').mpr ⟨hlt, hnew⟩)

theorem Valid.foldl (h : o.Valid count) (first : List (Ref s)) :
    (first.foldl Ordering.place o).Valid count ∧
      ∀ r, r ∈ (first.foldl Ordering.place o).order ↔ r ∈ o.order ∨ r ∈ first ∧ r.pos < count := by
  induction first generalizing o with
  | nil => exact ⟨h, by simp⟩
  | cons x rest ih =>
    obtain ⟨hplace, hmem⟩ := h.place x
    obtain ⟨hfold, hmem'⟩ := ih hplace
    refine ⟨hfold, fun r => ?_⟩
    rw [List.foldl_cons, hmem', hmem, List.mem_cons]
    constructor
    · rintro ((h | ⟨rfl, h⟩) | ⟨h, h'⟩)
      · exact .inl h
      · exact .inr ⟨.inl rfl, h⟩
      · exact .inr ⟨.inr h, h'⟩
    · rintro (h | ⟨rfl | h, h'⟩)
      · exact .inl (.inl h)
      · exact .inl (.inr ⟨rfl, h'⟩)
      · exact .inr ⟨h, h'⟩

end Ordering

theorem Coherent.reorder (h : c.Coherent) (first : Array (Ref s)) :
    (c.reorder first).Coherent := by
  obtain ⟨hvalid, hmem⟩ := (Ordering.valid_start c.size).foldl first.toList
  have hstart : (Ordering.start c.size : Ordering s).order = #[] := rfl
  rw [hstart] at hmem
  have horder : (c.reorder first).order =
      (first.toList.foldl Ordering.place (.start c.size)).order ++
        c.order.filter (first.toList.foldl Ordering.place (.start c.size)).isOpen := by
    rw [Collection.reorder, ← Array.foldl_toList]
  constructor
  · exact h.size_lt
  · rw [horder, Array.toList_append, List.nodup_append, Array.toList_filter]
    refine ⟨hvalid.nodup, h.nodup_order.filter _, ?_⟩
    rintro r hr _ hr' rfl
    exact ((hvalid.isOpen_iff r).mp (List.mem_filter.mp hr').2).2 (Array.mem_toList_iff.mp hr)
  · intro r
    rw [horder, Array.mem_append, Array.mem_filter, hvalid.isOpen_iff, h.mem_order_iff]
    change _ ↔ r.pos < c.size
    have := (hmem r)
    constructor
    · rintro (hr | hr)
      · exact ((hmem r).mp hr).elim (by simp) (·.2)
      · exact hr.1
    · intro hr
      by_cases hr' : r ∈ (first.toList.foldl Ordering.place (.start c.size)).order
      · exact .inl hr'
      · exact .inr ⟨hr, hr, hr'⟩

/-- Whatever is named first, every entity still comes once. -/
theorem order_reorder_perm (h : c.Coherent) (first : Array (Ref s)) :
    (c.reorder first).order.toList.Perm c.order.toList := by
  have hreorder := h.reorder first
  refine (List.perm_ext_iff_of_nodup hreorder.nodup_order h.nodup_order).mpr fun r => ?_
  rw [Array.mem_toList_iff, Array.mem_toList_iff, hreorder.mem_order_iff, h.mem_order_iff]
  exact Iff.rfl

/-! ## References by slot -/

theorem toList_refs (c : Collection s) : c.refs.toList = (List.range c.size).map .ofPos := by
  simp [refs]

theorem toList_refs_add (c : Collection s) (x : s.Content) :
    (c.add x).2.refs.toList = c.refs.toList ++ [(c.add x).1] := by
  rw [toList_refs, toList_refs, size_add, List.range_succ, List.map_append]
  rfl

theorem mem_refs (hc : c.size < 2 ^ 32) {r : Ref s} : r ∈ c.refs.toList ↔ r.pos < c.size := by
  rw [toList_refs, List.mem_map]
  constructor
  · rintro ⟨i, hi, rfl⟩
    rw [List.mem_range] at hi
    rwa [Ref.pos_ofPos (Nat.lt_trans hi hc)]
  · intro hr
    exact ⟨r.pos, List.mem_range.mpr hr, Ref.pos_inj.mp (Ref.pos_ofPos (Nat.lt_trans hr hc))⟩

/-- The references are in the order of the slots. -/
theorem pairwise_refs (hc : c.size < 2 ^ 32) :
    c.refs.toList.Pairwise fun r r' => r.pos < r'.pos := by
  rw [toList_refs, List.pairwise_map]
  refine List.pairwise_lt_range.imp_of_mem fun {i j} hi hj hlt => ?_
  rw [List.mem_range] at hi hj
  rwa [Ref.pos_ofPos (Nat.lt_trans hi hc), Ref.pos_ofPos (Nat.lt_trans hj hc)]

/-! ## Collections of given entities -/

/-- The collection to which entities have been added one after the other. -/
def ofItems (items : List s.Content) : Collection s :=
  items.foldl (fun c x => (c.add x).2) ∅

private theorem foldl_add (items : List s.Content) (c : Collection s) :
    (items.foldl (fun c x => (c.add x).2) c).items = c.items ++ items.toArray := by
  induction items generalizing c with
  | nil => simp
  | cons x rest ih =>
    rw [List.foldl_cons, ih]
    simp [add]

@[simp] theorem items_ofItems (items : List s.Content) : (ofItems items).items = items.toArray := by
  rw [ofItems, foldl_add]
  exact Array.empty_append

theorem coherent_ofItems {items : List s.Content} (h : items.length < 2 ^ 32) :
    (ofItems items).Coherent := by
  have hfold (c : Collection s) (hc : c.Coherent) (hsize : c.size + items.length < 2 ^ 32) :
      (items.foldl (fun c x => (c.add x).2) c).Coherent := by
    clear h
    induction items generalizing c with
    | nil => exact hc
    | cons x rest ih =>
      rw [List.length_cons] at hsize
      exact ih _ (hc.add (by omega) x) (by rw [size_add]; omega)
  exact hfold ∅ coherent_empty (by simpa using h)

end Collection

end DexGraph
