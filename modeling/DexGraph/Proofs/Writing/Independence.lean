import DexGraph.Proofs.Assembly.Oblivious
import DexGraph.Proofs.Writing.MirroredRuns

/-!
# A fresh layout is independent of the recorded one

Laying a graph out anew starts by clearing all offsets, and from there on nothing that a layout
recorded before is looked at, apart from the size of the hidden-API section. As a graph mirrors
itself, two runs from different layouts come to the same: `Graph.write_relayout_congr` says that the
same image or the same error comes out.
-/

namespace DexGraph

namespace Graph

variable {g : Graph} {l l' : Layout}

/-- Laying a graph out anew, the same image or the same error comes out whatever layout was recorded,
as long as the hidden-API section is not made to take more room in one than in the other. -/
theorem write_relayout_congr (hsize : ∀ flags, g.hiddenapi = some flags →
    flags.encode l.hiddenapi.size = flags.encode l'.hiddenapi.size) :
    (g.write .relayout l).1 = (g.write .relayout l').1 :=
  g.mirrors_refl.write_relayout (fun h => h ▸ rfl) hsize

end Graph

namespace Dex

/-- What comes out when a file is laid out anew depends on its contents alone and, if it has a
hidden-API section, on the size recorded for that. So it does not matter either whether the offsets
of an image were kept when it was read. -/
theorem write_relayout_independent :
    (∀ d d' : Dex, d.graph = d'.graph →
      (d.graph.hiddenapi.isSome = true → d.layout.hiddenapi.size = d'.layout.hiddenapi.size) →
        (d.write .relayout).1 = (d'.write .relayout).1) ∧
      ∀ image : Image,
        (∃ e, ofImage .preserving image = .error e ∧ ofImage .relayout image = .error e) ∨
          ∃ d d', ofImage .preserving image = .ok d ∧ ofImage .relayout image = .ok d' ∧
            (d.write .relayout).1 = (d'.write .relayout).1 := by
  have hwrite (d d' : Dex) (hgraph : d.graph = d'.graph)
      (hsize : d.graph.hiddenapi.isSome = true →
        d.layout.hiddenapi.size = d'.layout.hiddenapi.size) :
      (d.write .relayout).1 = (d'.write .relayout).1 := by
    change (d.graph.write .relayout d.layout).1 = (d'.graph.write .relayout d'.layout).1
    rw [← hgraph]
    refine Graph.write_relayout_congr fun flags hflags => ?_
    rw [hsize (hflags ▸ rfl)]
  refine ⟨hwrite, fun image => ?_⟩
  rcases ofImage_keepOffsets image true true false with herror | ⟨d, d', hd, hd', hgraph, hsize⟩
  · exact .inl herror
  · exact .inr ⟨d, d', hd, hd', hwrite d d' hgraph fun _ => hsize⟩

/-- The file with one method is laid out anew as it was for the first time. -/
theorem write_relayout_independent_oneMethod : ∃ image d,
    Dex.write ⟨.oneMethod, .empty, {}⟩ .relayout = (.ok image, d) ∧
      (d.write .relayout).1 = .ok image := by
  obtain ⟨image, l, hwrite⟩ := Graph.write_oneMethod
  have h : Dex.write ⟨.oneMethod, .empty, {}⟩ .relayout = (.ok image, ⟨.oneMethod, l, {}⟩) := by
    unfold write
    rw [hwrite]
  refine ⟨image, _, h, ?_⟩
  rw [← write_relayout_independent.1 ⟨.oneMethod, .empty, {}⟩ ⟨.oneMethod, l, {}⟩ rfl nofun, h]

end Dex

end DexGraph
