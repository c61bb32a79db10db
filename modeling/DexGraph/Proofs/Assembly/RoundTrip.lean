import DexGraph.Proofs.Assembly.CapturedOffsets
import DexGraph.Proofs.Assembly.FreshGraph

/-!
# Laying out and reading again

A well-formed graph that has been laid out anew is read again from the image: the graph that is read
mirrors it, whichever set of options is used. If offsets are kept, every entity is found where the
layout has it, and if they are not, nothing has an offset. The sizes of the data items are those
with which they were stored in both cases (`Dex.write_relayout_roundTrip`).

That the graphs mirror each other is known from `FreshImage.exists_completed`. The places follow from
the completed assembly, which knows the same offsets as the one into which the tables were read.
-/

namespace DexGraph

/-- The second layout has the places of counterparts: the offsets, if these are kept, and the sizes
of data items. -/
structure Layout.CarriesOver (l : Layout) (keep : Bool) (g : Graph) (ρ : Pairing) (l' : Layout) :
    Prop where
  offset : keep = true → ∀ {s : Section} {r r' : Ref s}, g.Has s r → ρ s r r' →
    (l'.place r').offset = (l.place r).offset
  clear : keep = false → ∀ {s : Section} (r : Ref s), (l'.place r).offset = none
  size : ∀ {s : Section} {r r' : Ref s}, s.rowSize? = none → ρ s r r' →
    (l'.place r').size = (l.place r).size

/-- The layout has the size of what has been stored of a data item. -/
theorem FreshImage.length_item {g : Graph} {l : Layout} {image : Bytes} {blocks : List Block}
    (h : FreshImage g l image blocks) {s : Section} (hs : s.rowSize? = none) {r : Ref s}
    {x : s.Content} {o : UInt32} {item : Stream} (hx : g.get? r = some x)
    (ho : (l.place r).offset = some o) (hitem : s.encode l x = .ok item) :
    item.length = (l.place r).size.toNat := by
  have hmem := h.item_mem hs ho
  obtain ⟨content, ⟨x', hx', hcontent⟩, hlength, -⟩ := h.holds _ hmem (by simp)
  cases hx.symm.trans hx'
  cases hitem.symm.trans hcontent
  simpa using hlength

namespace Assembly.Completes

variable {source : Source} {g : Graph} {l : Layout} {blocks : List Block} {a a' : Assembly}
  {s : Section} {r r' : Ref s} (hc : a.Completes g l a')
include hc

/-- Completing an assembly finds nothing else. -/
theorem find?_view (o : UInt32) :
    (a'.view source.data).find? s o = (a.view source.data).find? s o := by
  unfold view
  rw [hc.known]

variable (ha : a.UpTo source g l 8) (h : FreshImage g l source.data blocks) (hg : g.WellFormed)
  (hp : source.Presents g l)
include ha h hg hp

/-- All that the image has is found in the completed assembly. -/
theorem covers : (a'.view source.data).Covers (g.chart l 8) where
  rows t ht := by
    have hcount : a'.graph.count t = a.graph.count t := congrArg Collection.size (hc.row t ht)
    change _ ≤ a'.graph.count t
    rw [hcount]
    exact (ha.covers h hg hp).rows t ht
  find hholds := by
    rw [hc.find?_view]
    exact (ha.covers h hg hp).find hholds

/-- A data item has the place that the layout has for what it is the counterpart of. -/
theorem place_item (hvalid : a'.Valid source) (hs : s.rowSize? = none)
    (hpair : l.pairing (a.view source.data) s r r') :
    (a'.layout.place r').size = (l.place r).size ∧
      (source.options.keepOffsets = true →
        (a'.layout.place r').offset = (l.place r).offset) := by
  unfold Layout.pairing at hpair
  rw [hs] at hpair
  obtain ⟨o, ho, hfind⟩ := hpair
  rw [← hc.find?_view] at hfind
  obtain ⟨x', hx'⟩ := Graph.has_iff_exists.mp (hvalid.closed s o r' hs hfind)
  obtain ⟨o', met, q, hfind', hreads, hsize, hoffset⟩ := hvalid.placed s r' x' hs hx'
  obtain rfl := hvalid.find_inj hs hfind hfind'
  -- What is read at the offset takes as many bytes as have been stored there.
  obtain ⟨x, hx⟩ := Graph.has_iff_exists.mp ((h.assigned_iff s hs r).mp ⟨o, ho⟩).has
  obtain ⟨y, item, hitem, -, hreads', -⟩ := h.exists_reads hx (hg.entities s r x hx) ho
    (h.finds_of_covers hg (hc.covers ha h hg hp) hx (Section.inReach_all x)
      fun _ _ _ y _ => Section.inReach_all y)
  obtain ⟨-, -, rfl⟩ := (hreads _ (.refl _)).unique hreads'
  refine ⟨UInt32.toNat_inj.mp ?_, fun hkeep => (hoffset hkeep).trans ho.symm⟩
  rw [hsize, Nat.add_sub_cancel_left, h.length_item hs hx ho hitem]

/-- The completed assembly has the places of the layout. -/
theorem carriesOver (hvalid : a'.Valid source) (hstamped : a'.Stamped source) :
    l.CarriesOver source.options.keepOffsets g (l.pairing (a.view source.data)) a'.layout where
  offset hkeep {s r r'} hr hpair := by
    cases hs : s.rowSize? with
    | none => exact (hc.place_item ha h hg hp hvalid hs hpair).2 hkeep
    | some n =>
      have hrow : s.rowSize? ≠ none := by simp [hs]
      unfold Layout.pairing at hpair
      rw [hs] at hpair
      subst hpair
      obtain ⟨o, ho⟩ := h.exists_offset hg hr
      have hhas : a'.graph.Has s r := by
        have hcount : a'.graph.count s = a.graph.count s := congrArg Collection.size (hc.row s hrow)
        unfold Graph.Has
        rw [hcount, ha.count_row hrow]
        exact hr
      obtain ⟨x, hx⟩ := Graph.has_iff_exists.mp hhas
      obtain ⟨range, met, hrange, -, -, hstop⟩ := hvalid.exists_row hs hx
      have hstart := hp.row_eq h hg.sound hs hrange hr ho
      rw [hstamped.offset hkeep s n range hs hrange r hhas, ho, Option.some.injEq,
        ← UInt32.toNat_inj, toNat_rowOffset (hstop.trans_lt h.size_lt)]
      exact hstart
  clear hkeep s r := hstamped.clear hkeep s r
  size hs hpair := (hc.place_item ha h hg hp hvalid hs hpair).1

end Assembly.Completes

namespace Dex

/-- A file with a well-formed graph that has been laid out anew is read again, with either set of
options: the graphs mirror each other, and the layouts have counterparts at the same places. -/
theorem write_relayout_roundTrip {d d' : Dex} {image : Bytes} (hd : d.graph.WellFormed)
    (hwrite : d.write .relayout = (.ok image, d')) :
    ∃ loaded, Image.load image = .ok loaded ∧ loaded.data = image ∧
      ∀ options ∈ [BuildOptions.preserving, .relayout], ∃ d'' ρ, ofImage options loaded = .ok d'' ∧
        d.graph.Mirrors d''.graph ρ ∧
        d'.layout.CarriesOver options.keepOffsets d.graph ρ d''.layout := by
  obtain ⟨l, hl, rfl⟩ : ∃ l, d.graph.write .relayout d.layout = (.ok image, l) ∧
      d' = { d with layout := l } := by
    unfold write at hwrite
    cases hl : d.graph.write .relayout d.layout with
    | mk outcome l =>
      rw [hl] at hwrite
      cases hwrite
      exact ⟨l, rfl, rfl⟩
  obtain ⟨blocks, h⟩ := Graph.write_relayout hd.sound hl
  obtain ⟨header, map, hload, hdata, -⟩ := h.exists_presents hd .preserving
  refine ⟨_, hload, hdata, fun options hoptions => ?_⟩
  have hflags : options.loadHiddenapi = true := by
    revert options
    decide
  obtain ⟨source, a, a', rfl, rfl, hload', hread, hrun, hp, ha, hcomplete⟩ :=
    h.exists_completed hd hflags
  cases hload.symm.trans hload'
  obtain ⟨hvalid, hstamped, -⟩ := Build.of_all source h.size_lt hrun
  exact ⟨_, _, hread, hcomplete.mirrors ha h hd hp,
    hcomplete.carriesOver ha h hd hp hvalid hstamped⟩

/-- The file with one method is read again after it has been laid out. -/
theorem write_oneMethod_roundTrip : Graph.oneMethod.WellFormed ∧ ∃ image d',
    write ⟨.oneMethod, .empty, {}⟩ .relayout = (.ok image, d') ∧
    ∃ loaded, Image.load image = .ok loaded ∧ loaded.data = image ∧
      ∀ options ∈ [BuildOptions.preserving, .relayout], ∃ d'' ρ, ofImage options loaded = .ok d'' ∧
        Graph.oneMethod.Mirrors d''.graph ρ ∧
        d'.layout.CarriesOver options.keepOffsets .oneMethod ρ d''.layout := by
  obtain ⟨image, l, hrun⟩ := Graph.write_oneMethod
  have hwrite : write ⟨.oneMethod, .empty, {}⟩ .relayout = (.ok image, ⟨.oneMethod, l, {}⟩) := by
    unfold write
    rw [hrun]
  exact ⟨Graph.oneMethod_wellFormed, image, _, hwrite,
    write_relayout_roundTrip Graph.oneMethod_wellFormed hwrite⟩

end Dex

end DexGraph
