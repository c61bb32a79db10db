import DexGraph.Proofs.Graph.Coherence
import Mathlib.Data.List.Nodup

/-!
# The order after a reordering

`Collection.toList_order_reorder` says in which order a collection lists its entities once some of
them have been put first: those that are named and exist, each where it is named first, and then all
others as before. Naming the same entities again changes nothing
(`Collection.reorder_reorder`).
-/

namespace DexGraph

/-! ## First occurrences -/

section FirstOccurrences

variable {α β : Type}

theorem eraseDups_eq_self_of_nodup [DecidableEq α] {xs : List α} (h : xs.Nodup) :
    xs.eraseDups = xs := by
  induction xs with
  | nil => rfl
  | cons x xs ih =>
    obtain ⟨hx, hxs⟩ := List.nodup_cons.mp h
    have hrest : xs.filter (fun y => !y == x) = xs := by
      refine List.filter_eq_self.mpr fun y hy => ?_
      have hne : y ≠ x := fun heq => hx (heq ▸ hy)
      simpa using hne
    rw [List.eraseDups_cons, hrest, ih hxs]

/-- Of two values the one comes first whose first source comes first. -/
theorem pairwise_eraseDups_map [DecidableEq β] {R : α → α → Prop} {f : α → β} :
    ∀ {xs : List α}, xs.Pairwise R → (xs.map f).eraseDups.Pairwise fun y y' =>
      ∃ x ∈ xs, f x = y ∧ ∀ x' ∈ xs, f x' = y' → R x x'
  | [], _ => .nil
  | x :: xs, h => by
    rw [List.pairwise_cons] at h
    have hrest : (xs.map f).filter (fun y => !y == f x) =
        (xs.filter fun x' => !f x' == f x).map f := List.filter_map
    rw [List.map_cons, List.eraseDups_cons, hrest, List.pairwise_cons]
    -- The values behind the first come from sources behind the first.
    have hbehind {y : β} (hy : y ∈ ((xs.filter fun x' => !f x' == f x).map f).eraseDups) :
        y ≠ f x := by
      obtain ⟨x', hx', rfl⟩ := List.mem_map.mp (List.mem_eraseDups.mp hy)
      simpa using (List.mem_filter.mp hx').2
    constructor
    · intro y hy
      refine ⟨x, List.mem_cons_self, rfl, fun x' hx' hfx' => ?_⟩
      rcases List.mem_cons.mp hx' with rfl | hx'
      · exact absurd hfx'.symm (hbehind hy)
      · exact h.1 x' hx'
    · refine (pairwise_eraseDups_map (h.2.filter _)).imp_of_mem fun {y y'} _ hy' hfirst => ?_
      obtain ⟨x₁, hx₁, hfx₁, hlater⟩ := hfirst
      refine ⟨x₁, List.mem_cons_of_mem _ (List.mem_filter.mp hx₁).1, hfx₁, fun x' hx' hfx' => ?_⟩
      have hne : f x' ≠ f x := hfx' ▸ hbehind hy'
      refine hlater x' (List.mem_filter.mpr ⟨?_, by simpa using hne⟩) hfx'
      exact List.mem_of_ne_of_mem (fun heq => hne (congrArg f heq)) hx'
termination_by xs => xs.length
decreasing_by exact Nat.lt_succ_of_le (List.length_filter_le ..)

end FirstOccurrences

namespace Collection

variable {s : Section} {c : Collection s}

/-- What is put in order are the references that are new and in range, each where it comes
first. -/
theorem Ordering.Valid.toList_order_foldl {o : Ordering s} {count : Nat} (h : o.Valid count)
    (first : List (Ref s)) : (first.foldl Ordering.place o).order.toList =
      o.order.toList ++ (first.filter fun r => r.pos < count ∧ r ∉ o.order).eraseDups := by
  induction first generalizing o with
  | nil => simp
  | cons x rest ih =>
    rw [List.foldl_cons, ih (h.place x).1]
    unfold Ordering.place
    by_cases hopen : o.isOpen x = true
    · have hx := (h.isOpen_iff x).mp hopen
      rw [if_pos hopen, List.filter_cons_of_pos (by simpa using hx), List.eraseDups_cons,
        List.filter_filter, Array.toList_push, List.append_assoc, List.singleton_append]
      congr 3
      refine List.filter_congr fun r _ => ?_
      rw [Bool.eq_iff_iff]
      simp only [Array.mem_push, not_or, decide_eq_true_eq, Bool.and_eq_true, Bool.not_eq_true',
        beq_eq_false_iff_ne]
      tauto
    · have hx : ¬ (x.pos < count ∧ x ∉ o.order) := fun hx => hopen ((h.isOpen_iff x).mpr hx)
      rw [if_neg hopen, List.filter_cons_of_neg (by simpa using hx)]

/-- The references that name an entity, each where it comes first. -/
def firstNamed (c : Collection s) (first : List (Ref s)) : List (Ref s) :=
  (first.filter fun r => r.pos < c.size).eraseDups

theorem mem_firstNamed {first : List (Ref s)} {r : Ref s} :
    r ∈ c.firstNamed first ↔ r ∈ first ∧ r.pos < c.size := by
  simp [firstNamed]

theorem firstNamed_eq_self {first : List (Ref s)} (hnodup : first.Nodup)
    (hlt : ∀ r ∈ first, r.pos < c.size) : c.firstNamed first = first := by
  rw [firstNamed, List.filter_eq_self.mpr fun r hr => decide_eq_true (hlt r hr),
    eraseDups_eq_self_of_nodup hnodup]

/-- The entities that are named come first, each where it is named first; the others follow in
their order. -/
theorem toList_order_reorder (h : c.Coherent) (first : Array (Ref s)) :
    (c.reorder first).order.toList =
      c.firstNamed first.toList ++ c.order.toList.filter (· ∉ first) := by
  have hstart := Ordering.valid_start (s := s) c.size
  have horder := hstart.toList_order_foldl first.toList
  obtain ⟨hvalid, -⟩ := hstart.foldl first.toList
  have hnamed : (first.toList.foldl Ordering.place (.start c.size)).order.toList =
      c.firstNamed first.toList := by
    rw [horder]
    simp [Ordering.start, firstNamed]
  rw [Collection.reorder, ← Array.foldl_toList, Array.toList_append, hnamed, Array.toList_filter]
  congr 1
  refine List.filter_congr fun r hr => ?_
  have hlt := (h.mem_order_iff r).mp (Array.mem_toList_iff.mp hr)
  rw [Bool.eq_iff_iff, hvalid.isOpen_iff, ← Array.mem_toList_iff, hnamed, mem_firstNamed,
    Array.mem_toList_iff]
  simp [hlt]

/-- If every entity is named once, the order becomes that in which they are named. -/
theorem order_reorder_of_perm (h : c.Coherent) {first : Array (Ref s)}
    (hperm : first.toList.Perm c.order.toList) : (c.reorder first).order = first := by
  have hmem (r : Ref s) : r ∈ first ↔ r ∈ c.order := by
    rw [← Array.mem_toList_iff, hperm.mem_iff, Array.mem_toList_iff]
  have hnamed : c.firstNamed first.toList = first.toList := by
    refine firstNamed_eq_self (hperm.nodup_iff.mpr h.nodup_order) fun r hr => ?_
    exact (h.mem_order_iff r).mp ((hmem r).mp (Array.mem_toList_iff.mp hr))
  have hnone : c.order.toList.filter (· ∉ first) = [] := by
    rw [List.filter_eq_nil_iff]
    intro r hr
    simpa using (hmem r).mpr (Array.mem_toList_iff.mp hr)
  rw [← Array.toList_inj, toList_order_reorder h, hnamed, hnone, List.append_nil]

/-- Putting the same entities first once more changes nothing. -/
theorem reorder_reorder (h : c.Coherent) (first : Array (Ref s)) :
    (c.reorder first).reorder first = c.reorder first := by
  have horder : ((c.reorder first).reorder first).order = (c.reorder first).order := by
    have hnamed : (c.firstNamed first.toList).filter (· ∉ first) = [] := by
      rw [List.filter_eq_nil_iff]
      intro r hr
      simpa using (mem_firstNamed.mp hr).1
    rw [← Array.toList_inj, toList_order_reorder (h.reorder first), toList_order_reorder h first,
      List.filter_append, hnamed, List.nil_append, List.filter_filter]
    simp only [Bool.and_self]
    rfl
  rw [Collection.reorder, Collection.reorder, Collection.mk.injEq]
  exact ⟨rfl, horder⟩

end Collection

end DexGraph
