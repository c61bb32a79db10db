import DexGraph.Graph.OffsetIndex
import DexGraph.Proofs.Graph.Reordering

/-!
# Offset indexes

What an index has under a key before and after an entity is entered, and the order into which it
brings a collection: the entities that have keys come first, in the order of the keys
(`OffsetIndex.toList_order_sort`).
-/

namespace DexGraph

namespace OffsetIndex

variable {κ : Type} [Ord κ] {s : Section} {index : OffsetIndex κ} {key : κ} {c : Collection s}

/-- The keys in their order, with the entities that are known under them. -/
def entries (index : OffsetIndex κ) : List (κ × Ref s) :=
  index.slots.toList.map fun entry => (entry.1, ⟨entry.2⟩)

theorem toList_inKeyOrder (index : OffsetIndex κ) :
    (index.inKeyOrder : Array (Ref s)).toList = index.entries.map Prod.snd := by
  have hvalues : index.slots.valuesArray =
      index.slots.foldl (fun slots _ slot => slots.push slot) #[] := rfl
  rw [inKeyOrder, hvalues, Std.TreeMap.foldl_eq_foldl_toList]
  simp [entries]

variable [Std.TransOrd κ]

theorem pairwise_entries (index : OffsetIndex κ) :
    (index.entries : List (κ × Ref s)).Pairwise fun e e' => compare e.1 e'.1 = .lt := by
  rw [entries, List.pairwise_map]
  exact Std.TreeMap.ordered_keys_toList

/-- Under a key that is taken nothing is entered. -/
theorem register_of_get?_eq_some {r : Ref s} (h : index.get? key = some r) (offset : UInt32)
    (x : s.Content) : index.register c key offset x = .error (.duplicateItem s offset) := by
  have htaken : index.slots.contains key = true := by
    obtain ⟨slot, hslot, -⟩ := Option.map_eq_some_iff.mp h
    rw [Std.TreeMap.contains_eq_isSome_getElem?, hslot, Option.isSome_some]
  simp [register, htaken]

variable [Std.LawfulEqOrd κ]

theorem mem_entries {e : κ × Ref s} : e ∈ index.entries ↔ index.get? e.1 = some e.2 := by
  obtain ⟨key, slot⟩ := e
  rw [entries, List.mem_map, get?, Option.map_eq_some_iff]
  constructor
  · rintro ⟨⟨key', slot'⟩, hmem, heq⟩
    cases heq
    exact ⟨slot', Std.TreeMap.mem_toList_iff_getElem?_eq_some.mp hmem, rfl⟩
  · rintro ⟨slot', hslot, heq⟩
    cases heq
    exact ⟨(key, slot'), Std.TreeMap.mem_toList_iff_getElem?_eq_some.mpr hslot, rfl⟩

theorem mem_inKeyOrder {r : Ref s} :
    r ∈ (index.inKeyOrder : Array (Ref s)) ↔ ∃ key, index.get? key = some r := by
  rw [← Array.mem_toList_iff, toList_inKeyOrder, List.mem_map]
  constructor
  · rintro ⟨e, he, rfl⟩
    exact ⟨e.1, mem_entries.mp he⟩
  · rintro ⟨key, hkey⟩
    exact ⟨(key, r), mem_entries.mpr hkey, rfl⟩

/-- Entering an entity under a key that is new. -/
theorem register_of_get?_eq_none [DecidableEq κ] (h : (index.get? key : Option (Ref s)) = none)
    (offset : UInt32) (x : s.Content) :
    ∃ index' : OffsetIndex κ,
      index.register c key offset x = .ok ((c.add x).1, index', (c.add x).2) ∧
      ∀ key', (index'.get? key' : Option (Ref s)) =
        if key' = key then some (c.add x).1 else index.get? key' := by
  have hnew : index.slots.contains key = false := by
    unfold get? at h
    rw [Option.map_eq_none_iff] at h
    rwa [Std.TreeMap.contains_eq_isSome_getElem?, Option.isSome_eq_false_iff,
      Option.isNone_iff_eq_none]
  refine ⟨⟨index.slots.insert key (c.add x).1.slot⟩, ?_, fun key' => ?_⟩
  · simp [register, hnew]
  · simp only [get?, Std.TreeMap.getElem?_insert, Std.LawfulEqOrd.compare_eq_iff_eq]
    by_cases hkey : key' = key
    · simp [hkey]
    · rw [if_neg (Ne.symm hkey), if_neg hkey]

/-- Sorting puts the entities that have keys first, in the order of the keys; the others follow in
their order. The keys are those of different entities of the collection. -/
theorem toList_order_sort (hc : c.Coherent)
    (hinj : ∀ key key' (r : Ref s), index.get? key = some r → index.get? key' = some r → key = key')
    (hlt : ∀ key (r : Ref s), index.get? key = some r → r.pos < c.size) :
    (index.sort c).order.toList = index.entries.map Prod.snd ++
      c.order.toList.filter (· ∉ index.entries.map Prod.snd) := by
  have hnodup : (index.entries.map Prod.snd : List (Ref s)).Nodup := by
    rw [List.Nodup, List.pairwise_map]
    refine (pairwise_entries index).imp_of_mem fun {e e'} he he' hcompare heq => ?_
    have hkeys := hinj e.1 e'.1 e.2 (mem_entries.mp he) (heq ▸ mem_entries.mp he')
    rw [hkeys, Std.compare_self] at hcompare
    cases hcompare
  have hnamed : c.firstNamed (index.inKeyOrder : Array (Ref s)).toList =
      index.entries.map Prod.snd := by
    rw [toList_inKeyOrder]
    refine Collection.firstNamed_eq_self hnodup fun r hr => ?_
    obtain ⟨e, he, rfl⟩ := List.mem_map.mp hr
    exact hlt e.1 e.2 (mem_entries.mp he)
  rw [sort, Collection.toList_order_reorder hc, hnamed, ← toList_inKeyOrder]
  simp only [Array.mem_toList_iff]

end OffsetIndex

end DexGraph
