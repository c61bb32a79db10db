import DexGraph.Proofs.Codec.Entity
import DexGraph.Proofs.Graph.Emitted
import DexGraph.Proofs.Writing.Establishes

/-!
# Which entities are written

`Graph.Written g l s r` says that the entity `r` is written under the layout `l`: every entity is,
except bodies that no method uses and debug info that no written body has, and these too if they
have an offset. Where the layout places nothing but what a fresh image holds, the written entities
are the emitted ones (`Graph.written_iff_emitted`).
-/

namespace DexGraph

/-- The job of writing a graph. -/
def Graph.job (g : Graph) (options : WriteOptions) : Job :=
  ⟨g, options, g.liveCode⟩

namespace Graph

/-- The entity is written under the layout. -/
def Written (g : Graph) (l : Layout) : (s : Section) → Ref s → Prop
  | .codeItem, r => g.Has .codeItem r ∧ (g.UsesBody r ∨ l.Assigned .codeItem r)
  | .debugInfo, r =>
    g.Has .debugInfo r ∧ ((∃ (c : Ref .codeItem) (code : CodeItem), g.get? c = some code ∧
      (g.UsesBody c ∨ l.Assigned .codeItem c) ∧ code.debugInfo = some r) ∨
        l.Assigned .debugInfo r)
  | s, r => g.Has s r

variable {g : Graph} {l : Layout} {s : Section}

theorem Written.has {r : Ref s} (h : g.Written l s r) : g.Has s r := by
  cases s with
  | codeItem => exact h.1
  | debugInfo => exact h.1
  | _ => exact h

theorem written_iff_emitted
    (hcode : ∀ r, l.Assigned .codeItem r → g.Emitted .codeItem r)
    (hdebug : ∀ r, l.Assigned .debugInfo r → g.Emitted .debugInfo r) {r : Ref s} :
    g.Written l s r ↔ g.Emitted s r := by
  have huse (c : Ref .codeItem) : g.UsesBody c ∨ l.Assigned .codeItem c ↔ g.UsesBody c :=
    or_iff_left_of_imp fun h => (hcode c h).2
  cases s with
  | codeItem => exact and_congr_right fun _ => huse r
  | debugInfo =>
    simp only [Written, Emitted, huse]
    exact and_congr_right fun _ => or_iff_left_of_imp fun h => (hdebug r h).2
  | _ => exact Iff.rfl

end Graph

namespace Writer

variable {g : Graph} {options : WriteOptions} {E : Error → Prop} {d : Draft}

theorem establishes_codeRefs (hg : g.Sound) :
    Establishes (g.job options) E codeRefs (fun refs d' =>
      d' = d ∧ refs.toList.Sublist (g.entities .codeItem).order.toList ∧
        ∀ r, r ∈ refs ↔ g.Written d.layout .codeItem r) d := by
  refine ⟨rfl, ?_, fun r => ?_⟩
  · rw [Array.toList_filter]
    exact List.filter_sublist
  · change r ∈ (g.entities .codeItem).order.filter _ ↔ _
    rw [Array.mem_filter]
    change _ ∧ (g.liveCode.contains r.slot || _) = true ↔ _
    rw [hg.mem_order, Bool.or_eq_true, Graph.contains_liveCode_iff hg]
    exact and_congr_right fun _ => or_congr_right Option.isSome_iff_exists

/-- The debug info that is written belongs to the bodies that are written, or has an offset. -/
theorem establishes_debugInfoRefs (hg : g.Sound) :
    Establishes (g.job options) E debugInfoRefs (fun refs d' =>
      d' = d ∧ refs.toList.Sublist (g.entities .debugInfo).order.toList ∧
        ∀ r, r ∈ refs ↔ g.Written d.layout .debugInfo r) d := by
  unfold debugInfoRefs
  rw [establishes_bind, establishes_read]
  refine (establishes_codeRefs hg).bind ?_
  rintro refs d' ⟨hd, -, hrefs⟩
  rw [hd, establishes_bind, establishes_get, establishes_pure]
  refine ⟨rfl, ?_, fun r => ?_⟩
  · rw [Array.toList_filter]
    exact List.filter_sublist
  · have hused {step : Std.TreeSet UInt32 → Ref .codeItem → Std.TreeSet UInt32}
        (hstep : ∀ used c, step used c = Graph.mark used ((g.get? c).bind CodeItem.debugInfo)) :
        (refs.foldl step (∅ : Std.TreeSet UInt32)).contains r.slot ↔
          ∃ c ∈ refs, (g.get? c).bind CodeItem.debugInfo = some r := by
      rw [← Array.foldl_toList, Graph.contains_foldl_mark _ hstep]
      simp
    change r ∈ (g.entities .debugInfo).order.filter _ ↔ _
    rw [Array.mem_filter, hg.mem_order, Bool.or_eq_true]
    refine and_congr_right fun _ => or_congr ((hused fun used c => ?_).trans ?_)
      Option.isSome_iff_exists
    · change _ = Graph.mark used (((g.job options).graph.get? c).bind CodeItem.debugInfo)
      cases ((g.job options).graph.get? c).bind CodeItem.debugInfo <;> rfl
    simp only [Option.bind_eq_some_iff, hrefs]
    constructor
    · rintro ⟨c, hc, code, hcode, hd⟩
      exact ⟨c, code, hcode, hc.2, hd⟩
    · rintro ⟨c, code, hcode, huse, hd⟩
      exact ⟨c, ⟨Graph.has_of_get? hcode, huse⟩, code, hcode, hd⟩

end Writer

end DexGraph
