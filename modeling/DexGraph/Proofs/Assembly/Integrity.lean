import DexGraph.Proofs.Assembly.Lookups
import DexGraph.Proofs.Assembly.Tables

/-!
# Graphs that are read have no loose ends

Whatever the bytes are, a graph that is read from them is intact: every reference names an entity,
every try range a handler of its body, every note of a member and every locator what it is about.
The references are those that surveys read, and the rest is kept while the graph is assembled. So
no lookup in the graph misses.
-/

namespace DexGraph

/-- The notes about where members belong are no references of an entity. -/
theorem Section.allRefs_of_bare {p : (t : Section) → Ref t → Prop} {s : Section} {x : s.Content}
    (h : s.AllRefs p (s.bare x)) : s.AllRefs p x := by
  by_cases hs : s = .classData
  · subst hs
    obtain ⟨hfields, hmethods⟩ := h
    refine ⟨fun f hf => ?_, fun m hm => ?_⟩
    · refine hfields { f with classData := none } ?_
      rcases Array.mem_append.mp hf with hf | hf
      · exact Array.mem_append.mpr (.inl (Array.mem_map_of_mem hf))
      · exact Array.mem_append.mpr (.inr (Array.mem_map_of_mem hf))
    · refine hmethods { m with classData := none } ?_
      rcases Array.mem_append.mp hm with hm | hm
      · exact Array.mem_append.mpr (.inl (Array.mem_map_of_mem hm))
      · exact Array.mem_append.mpr (.inr (Array.mem_map_of_mem hm))
  · rwa [Section.bare_of_ne hs] at h

/-- What has been built is intact. -/
theorem Assembly.Built.intact {source : Source} {mark : Mark} {rows : Section → Nat} {a : Assembly}
    (h : a.Built source mark rows) : a.graph.Intact where
  sound := by
    refine ⟨h.valid.coherent, fun s r x hx => Section.allRefs_of_bare ?_⟩
    obtain ⟨p, -, met, q, hreads, -⟩ := h.valid.shown s r x hx
    exact Section.survey_ensures_allRefs h.valid.closed s _ _ _ _ (hreads _ (.refl _))
  tries r code hcode := by
    obtain ⟨p, -, met, q, hreads, -⟩ := h.valid.shown .codeItem r code hcode
    exact Section.survey_ensures_tries _ _ _ _ (hreads _ (.refl _))
  linked := h.registered.linked

/-- Reading any bytes with any options ends in an error, or in a graph that is intact and in which
no lookup misses. -/
theorem Dex.load_intact (bytes : Bytes) (options : BuildOptions) :
    (∃ e, (Image.load bytes).bind (ofImage options) = .error e) ∨
      ∃ d, (Image.load bytes).bind (ofImage options) = .ok d ∧ d.graph.Intact ∧
        d.graph.Answering := by
  cases Image.load bytes with
  | error e => exact .inl ⟨e, rfl⟩
  | ok image =>
    rcases ofImage_outcome options image with
      ⟨e, he, -⟩ | ⟨map, -, ⟨e, he, -⟩ | ⟨a, classes, ha, hcomplete⟩⟩
    · exact .inl ⟨e, he⟩
    · exact .inl ⟨e, he⟩
    · exact .inr ⟨_, ha, hcomplete.built.intact, hcomplete.built.intact.answering⟩

theorem Dex.ofImage_intact {options : BuildOptions} {image : Image} {d : Dex}
    (h : ofImage options image = .ok d) : d.graph.Intact := by
  obtain ⟨map, a, classes, rfl, hcomplete⟩ := complete_of_ofImage h
  exact hcomplete.built.intact

end DexGraph
