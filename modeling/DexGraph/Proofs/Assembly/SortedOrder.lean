import DexGraph.Proofs.Assembly.Establishes
import DexGraph.Proofs.Assembly.Valid

/-!
# The order of offsets

When everything has been read the data items of a section are put in the order of the keys under
which they are known. In a valid assembly every item is known under one key, and no two keys have
the same offset. So the order of a sorted section is that of the offsets at which its items lie
(`Assembly.Valid.order_sort`, `Assembly.Valid.pairwise_inKeyOrder`).
-/

namespace DexGraph

namespace View

/-- The one item is found at a smaller offset than the other. -/
def Precedes (v : View) {s : Section} (r r' : Ref s) : Prop :=
  ∃ o o', v.find? s o = some r ∧ v.find? s o' = some r' ∧ o.toNat < o'.toNat

end View

namespace Assembly.Valid

variable {source : Source} {a : Assembly} {s : Section} (h : a.Valid source)
include h

/-- Items are known under the keys of the offsets at which they are found. -/
theorem find?_of_get? {key : ItemKey} {r : Ref s} (hkey : (a.known.get s).get? key = some r) :
    (a.view source.data).find? s key.offset = some r := by
  change (a.known.get s).get? (.ofItem source.data s key.offset) = some r
  rw [← h.keyed hkey, hkey]

/-- The keys of a section are in the order of the offsets. -/
theorem pairwise_inKeyOrder : ((a.known.get s).inKeyOrder : Array (Ref s)).toList.Pairwise
    (a.view source.data).Precedes := by
  rw [OffsetIndex.toList_inKeyOrder, List.pairwise_map]
  refine (OffsetIndex.pairwise_entries _).imp_of_mem ?_
  rintro ⟨key, r⟩ ⟨key', r'⟩ hmem hmem' hlt
  have hget : (a.known.get s).get? key = some r := OffsetIndex.mem_entries.mp hmem
  have hget' : (a.known.get s).get? key' = some r' := OffsetIndex.mem_entries.mp hmem'
  refine ⟨key.offset, key'.offset, h.find?_of_get? hget, h.find?_of_get? hget', ?_⟩
  have hlex : (compare key.offset key'.offset).then
      (compare key.debugInfoOffset key'.debugInfoOffset) = .lt := hlt
  rcases Ordering.then_eq_lt.mp hlex with hoffset | ⟨hoffset, -⟩
  · exact UInt32.lt_iff_toNat_lt.mp (Std.compare_eq_lt.mp hoffset)
  · -- Keys with the same offset are the same.
    have hsame : key = key' := by
      rw [h.keyed hget, h.keyed hget', Std.LawfulEqOrd.eq_of_compare hoffset]
    subst hsame
    cases Std.compare_self.symm.trans hlt

theorem not_precedes_self (hs : s.rowSize? = none) (r : Ref s) :
    ¬ (a.view source.data).Precedes r r := by
  rintro ⟨o, o', ho, ho', hlt⟩
  exact Nat.lt_irrefl _ (h.find_inj hs ho ho' ▸ hlt)

/-- A section is sorted by naming all of its items once, whatever order they are in. -/
theorem order_sort (hs : s.rowSize? = none) {c : Collection s} (hc : c.Coherent)
    (hsize : c.size = a.graph.count s) :
    ((a.known.get s).sort c).order = (a.known.get s).inKeyOrder := by
  refine Collection.order_reorder_of_perm hc ?_
  have hnodup : ((a.known.get s).inKeyOrder : Array (Ref s)).toList.Nodup := by
    refine h.pairwise_inKeyOrder.imp ?_
    rintro r _ hlt rfl
    exact h.not_precedes_self hs r hlt
  refine (List.perm_ext_iff_of_nodup hnodup hc.nodup_order).mpr fun r => ?_
  rw [Array.mem_toList_iff, Array.mem_toList_iff, OffsetIndex.mem_inKeyOrder,
    hc.mem_order_iff, hsize]
  refine Iff.trans ?_ (h.has_iff s hs r).symm
  exact ⟨fun ⟨key, hkey⟩ => ⟨key.offset, h.find?_of_get? hkey⟩, fun ⟨o, ho⟩ => ⟨_, ho⟩⟩

end Assembly.Valid

namespace Build

variable {source : Source} {E : Error → Prop} {a : Assembly}

/-- Sections are sorted one after the other, each by what has been found in it. -/
theorem establishes_sortSections {xs : List Section} (hxs : xs.Nodup) :
    Establishes source E (xs.forM sortSection) (fun _ a' => a'.layout = a.layout ∧
      a'.known = a.known ∧ a.graph.Beside a'.graph ∧ ∀ s, a'.graph.entities s =
        if s ∈ xs then (a.known.get s).sort (a.graph.entities s) else a.graph.entities s) a := by
  induction xs generalizing a with
  | nil => exact ⟨rfl, rfl, .refl _, fun s => by simp⟩
  | cons t rest ih =>
    obtain ⟨ht, hrest⟩ := List.nodup_cons.mp hxs
    change Establishes source E (sortSection t >>= fun _ => rest.forM sortSection) _ a
    unfold sortSection
    rw [establishes_bind, establishes_modify]
    refine (ih hrest).mono fun _ a' ⟨hlayout, hknown, hbeside, hentities⟩ => ?_
    refine ⟨hlayout, hknown, .trans (.setEntities (.refl _) _ _) hbeside, fun s => ?_⟩
    rw [hentities]
    by_cases hs : s = t
    · subst hs
      rw [if_neg ht, if_pos List.mem_cons_self, Graph.entities_setEntities_self]
    · rw [Graph.entities_setEntities_of_ne _ _ (Ne.symm hs)]
      simp only [List.mem_cons, hs, false_or]

end Build

end DexGraph
