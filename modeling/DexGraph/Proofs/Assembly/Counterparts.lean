import DexGraph.Proofs.Assembly.FreshChart
import DexGraph.Proofs.Assembly.SortedOrder
import DexGraph.Proofs.Writing.MirroredRuns

/-!
# Counterparts in a fresh image

When all tables of an image that has been laid out anew have been read, every data item has been
found at the offset that the layout has for it (`Assembly.UpTo.covers`): links lead to each of them,
and where an entity has been read so has everything to which it links. What has been read for an
entity mirrors it (`Assembly.UpTo.exists_mirror`), and in the order of their offsets the items
correspond to those of the graph one by one (`Assembly.UpTo.forall₂_inKeyOrder`).
-/

namespace DexGraph

/-- In the end everything is in reach. -/
theorem Section.inReach_all {s : Section} (x : s.Content) : s.InReach 8 x := by
  cases hs : s.rowSize? with
  | none => exact (inReach_item hs x).mono (by decide)
  | some n =>
    have hrow : s.rowSize? ≠ none := by simp [hs]
    refine (inReach_row hrow x).mono ?_
    cases s <;> decide

/-- Notes do not count when entities are compared. -/
theorem Section.Mirrors.of_bare {ρ : Pairing} {s : Section} {x y : s.Content}
    (h : s.Mirrors ρ x (s.bare y)) : s.Mirrors ρ x y := by
  cases s with
  | classData =>
    obtain ⟨hs, hi, hd, hv⟩ := h
    simp only [bare, ClassData.bare, Array.toList_map, List.forall₂_map_right_iff] at hs hi hd hv
    exact ⟨hs.imp fun _ _ hf => hf, hi.imp fun _ _ hf => hf, hd.imp fun _ _ hm => hm,
      hv.imp fun _ _ hm => hm⟩
  | _ => exact h

namespace Assembly.UpTo

variable {source : Source} {g : Graph} {l : Layout} {blocks : List Block} {a : Assembly}
  {s : Section} (ha : a.UpTo source g l 8) (h : FreshImage g l source.data blocks)
  (hg : g.WellFormed) (hp : source.Presents g l)
include ha h hg hp

omit h hg hp in
theorem count_row (hs : s.rowSize? ≠ none) : a.graph.count s = g.count s := by
  rw [ha.built.count s hs]
  refine if_pos ?_
  cases s <;> first | decide | exact absurd rfl hs

/-- The counterpart of an entity starts where the image has the entity. -/
theorem starts_of_pairing {r r' : Ref s} {o : UInt32} (hr : g.Has s r)
    (ho : (l.place r).offset = some o) (hpair : l.pairing (a.view source.data) s r r') :
    source.Starts (a.view source.data) s r' o.toNat ∧ a.graph.Has s r' := by
  unfold Layout.pairing at hpair
  unfold Source.Starts
  cases hs : s.rowSize? with
  | some n =>
    rw [hs] at hpair
    subst hpair
    have hrow : s.rowSize? ≠ none := by simp [hs]
    obtain ⟨hsome, hnone⟩ := hp.range h hg.sound hrow
    refine ⟨?_, ?_⟩
    · cases hrange : source.range? s with
      | none =>
        have hzero := hnone hrange
        unfold Graph.Has at hr
        omega
      | some range =>
        refine ⟨range, rfl, ?_, (hp.row_eq h hg.sound hs hrange hr ho).symm⟩
        rw [(hsome range hrange).1]
        exact hr
    · unfold Graph.Has
      rw [ha.count_row hrow]
      exact hr
  | none =>
    rw [hs] at hpair
    obtain ⟨o', ho', hfind⟩ := hpair
    cases ho.symm.trans ho'
    exact ⟨⟨o, hfind, rfl⟩, (ha.built.valid.has_iff s hs r').mpr ⟨o, hfind⟩⟩

/-- What has been read for an entity is what is read where the image has it, in every view in which
more has been found. -/
theorem shown_of_pairing {r r' : Ref s} {o : UInt32} (hr : g.Has s r)
    (ho : (l.place r).offset = some o) (hpair : l.pairing (a.view source.data) s r r') :
    ∃ x', a.graph.get? r' = some x' ∧ a.Shows source.data s o.toNat (s.bare x') := by
  obtain ⟨hstarts, hhas⟩ := ha.starts_of_pairing h hg hp hr ho hpair
  obtain ⟨x', hx'⟩ := Graph.has_iff_exists.mp hhas
  obtain ⟨p, hp', hshows⟩ := ha.built.valid.shown s r' x' hx'
  exact ⟨x', hx', ha.built.valid.starts_unique hp' hstarts ▸ hshows⟩

/-- Where an entity has been read, so has everything to which it links. -/
theorem answered_of_pairing {r r' : Ref s} {x : s.Content} (hx : g.get? r = some x)
    (hpair : l.pairing (a.view source.data) s r r') {k : Link} (hk : k ∈ s.links x) :
    (l.pointer k).Answered (a.view source.data) := by
  have hr := Graph.has_of_get? hx
  obtain ⟨o, ho⟩ := h.exists_offset hg hr
  obtain ⟨x', -, met, q, hreads, hanswered⟩ := ha.shown_of_pairing h hg hp hr ho hpair
  -- In a view in which the whole chart has been found, the links are the pointers that are met.
  obtain ⟨v, hv, hwithin, -, -⟩ := ha.on.exists_covers
  obtain ⟨y, item, -, -, hreads', -⟩ := h.exists_reads hx (hg.entities s r x hx) ho
    (h.finds_of_covers hg hv hx (Section.inReach_all x) fun _ _ _ y _ => Section.inReach_all y)
  obtain ⟨-, rfl, -⟩ := (hreads v hwithin).unique hreads'
  exact hanswered _ (List.mem_map_of_mem hk)

/-- An item to which links lead from a table has been found. -/
theorem found_of_reached {r : Ref s} (hr : g.Reached s r) {o : UInt32}
    (ho : (l.place r).offset = some o) (hs : s.rowSize? = none) :
    ((a.view source.data).find? s o).isSome := by
  induction hr generalizing o with
  | row hrow => exact absurd hs hrow
  | @link s t r q x hr hx hq ih =>
    have hpair : ∃ r', l.pairing (a.view source.data) s r r' := by
      unfold Layout.pairing
      cases hrow : s.rowSize? with
      | some n => exact ⟨r, rfl⟩
      | none =>
        obtain ⟨o', ho'⟩ := h.exists_offset hg (Graph.has_of_get? hx)
        obtain ⟨r', hr'⟩ := Option.isSome_iff_exists.mp (ih ho' hrow)
        exact ⟨r', o', ho', hr'⟩
    obtain ⟨r', hpair⟩ := hpair
    have hanswered := ha.answered_of_pairing h hg hp hx hpair hq
    simp only [Layout.pointer, Option.bind_some, ho, Option.getD_some] at hanswered
    rcases hanswered with hfound | ⟨hzero, -⟩
    · exact hfound
    · exact absurd hzero (h.offset_ne_zero hs ho)

/-- In the end all of the chart has been found. -/
theorem covers : (a.view source.data).Covers (g.chart l 8) where
  rows s hs := (ha.built.count s hs).ge
  find {s o} hholds := by
    obtain ⟨hs, r, x, hx, ho, -⟩ := hholds
    exact ha.found_of_reached h hg hp (hg.reached s r hs (Graph.has_of_get? hx)) ho hs

/-- What has been read for an entity mirrors it. -/
theorem exists_mirror {r r' : Ref s} {x : s.Content} (hx : g.get? r = some x)
    (hpair : l.pairing (a.view source.data) s r r') :
    ∃ x', a.graph.get? r' = some x' ∧ s.Mirrors (l.pairing (a.view source.data)) x x' := by
  have hr := Graph.has_of_get? hx
  obtain ⟨o, ho⟩ := h.exists_offset hg hr
  obtain ⟨x', hx', met, q, hreads, -⟩ := ha.shown_of_pairing h hg hp hr ho hpair
  obtain ⟨y, item, -, -, hreads', hmirrors⟩ := h.exists_reads hx (hg.entities s r x hx) ho
    (h.finds_of_covers hg (ha.covers h hg hp) hx (Section.inReach_all x)
      fun _ _ _ y _ => Section.inReach_all y)
  obtain ⟨rfl, -, -⟩ := (hreads _ (.refl _)).unique hreads'
  exact ⟨x', hx', hmirrors.of_bare⟩

end Assembly.UpTo

/-! ## The order of the items -/

namespace FreshImage

variable {g : Graph} {l : Layout} {image : Bytes} {blocks : List Block} {s : Section}
  {r r' : Ref s} {o o' : UInt32}
  (h : FreshImage g l image blocks) (hg : g.WellFormed)
include h hg

/-- No part of the image of a well-formed graph is empty. -/
theorem start_lt_stop_of_wellFormed {b : Block} (hb : b ∈ blocks) : b.start < b.stop :=
  h.start_lt_stop (fun r x hx => DebugInfo.Complete.size_pos (hg.entities _ r x hx)) hb

/-- Data items with the same offset are the same. -/
theorem offset_inj (hs : s.rowSize? = none) (ho : (l.place r).offset = some o)
    (ho' : (l.place r').offset = some o) : r = r' := by
  by_contra hne
  have hb := h.item_mem hs ho
  have hb' := h.item_mem hs ho'
  have hlt := h.start_lt_stop_of_wellFormed hg hb
  have hlt' := h.start_lt_stop_of_wellFormed hg hb'
  have hdisjoint := h.disjoint hb hb' (by simpa using hne)
  simp only at hlt hlt' hdisjoint
  omega

/-- Data items lie in the image as they are listed. -/
theorem offset_lt (hs : s.rowSize? = none) (hlists : g.Lists r r')
    (ho : (l.place r).offset = some o) (ho' : (l.place r').offset = some o') :
    o.toNat < o'.toNat := by
  have hlt := h.start_lt_stop_of_wellFormed hg (h.item_mem hs ho)
  simp only at hlt
  exact h.offset_lt_of_size_pos hg.sound hs hlists ho ho' (by omega)

end FreshImage

namespace Assembly.UpTo

variable {source : Source} {g : Graph} {l : Layout} {blocks : List Block} {a : Assembly}
  {s : Section} (ha : a.UpTo source g l 8) (h : FreshImage g l source.data blocks)
  (hg : g.WellFormed) (hp : source.Presents g l)
include ha h hg hp

/-- Every entity has a counterpart. -/
theorem exists_pairing {r : Ref s} (hr : g.Has s r) :
    ∃ r', l.pairing (a.view source.data) s r r' := by
  obtain ⟨o, ho⟩ := h.exists_offset hg hr
  obtain ⟨x, hx⟩ := Graph.has_iff_exists.mp hr
  unfold Layout.pairing
  cases hs : s.rowSize? with
  | some n => exact ⟨r, rfl⟩
  | none =>
    have hfound := (ha.covers h hg hp).find ⟨hs, r, x, hx, ho, Section.inReach_all x⟩
    obtain ⟨r', hr'⟩ := Option.isSome_iff_exists.mp hfound
    exact ⟨r', o, ho, hr'⟩

omit hp in
/-- Counterparts are the same if and only if what they are counterparts of is. -/
theorem pairing_unique {r q r' q' : Ref s} (hr : l.pairing (a.view source.data) s r r')
    (hq : l.pairing (a.view source.data) s q q') : r = q ↔ r' = q' := by
  unfold Layout.pairing at hr hq
  cases hs : s.rowSize? with
  | some n =>
    rw [hs] at hr hq
    rw [hr, hq]
  | none =>
    rw [hs] at hr hq
    obtain ⟨o, ho, hfind⟩ := hr
    obtain ⟨o', ho', hfind'⟩ := hq
    constructor
    · rintro rfl
      cases ho.symm.trans ho'
      exact Option.some.inj (hfind.symm.trans hfind')
    · rintro rfl
      exact h.offset_inj hg hs ho (ha.built.valid.find_inj hs hfind hfind' ▸ ho')

/-- In the order of their offsets the items are the counterparts of those of the graph, one by
one. -/
theorem forall₂_inKeyOrder (hs : s.rowSize? = none) :
    List.Forall₂ (l.pairing (a.view source.data) s) (g.entities s).order.toList
      (a.known.get s).inKeyOrder.toList := by
  have hpair (r : Ref s) : ∃ r', g.Has s r → l.pairing (a.view source.data) s r r' := by
    by_cases hr : g.Has s r
    · obtain ⟨r', hr'⟩ := ha.exists_pairing h hg hp hr
      exact ⟨r', fun _ => hr'⟩
    · exact ⟨r, fun hr' => absurd hr' hr⟩
  choose counterpart hcounterpart using hpair
  have hfind {r : Ref s} (hr : r ∈ (g.entities s).order.toList) : ∃ o,
      (l.place r).offset = some o ∧ (a.view source.data).find? s o = some (counterpart r) := by
    have hpair := hcounterpart r (hg.sound.mem_order.mp (Array.mem_toList_iff.mp hr))
    unfold Layout.pairing at hpair
    rwa [hs] at hpair
  have hsorted : ((g.entities s).order.toList.map counterpart).Pairwise
      (a.view source.data).Precedes := by
    rw [List.pairwise_map]
    refine List.Pairwise.imp_of_mem ?_
      (List.pairwise_iff_forall_sublist.mpr fun {r r'} (hlists : g.Lists r r') => hlists)
    intro r r' hr hr' hlists
    obtain ⟨o, ho, hfound⟩ := hfind hr
    obtain ⟨o', ho', hfound'⟩ := hfind hr'
    exact ⟨o, o', hfound, hfound', h.offset_lt hg hs hlists ho ho'⟩
  have hvalid := ha.built.valid
  have hkeys : ((a.known.get s).inKeyOrder : Array (Ref s)).toList.Pairwise
      (a.view source.data).Precedes := hvalid.pairwise_inKeyOrder
  have hnodup {xs : List (Ref s)} (hxs : xs.Pairwise (a.view source.data).Precedes) : xs.Nodup := by
    refine hxs.imp ?_
    rintro r _ hlt rfl
    exact hvalid.not_precedes_self hs r hlt
  have hperm : ((g.entities s).order.toList.map counterpart).Perm
      (a.known.get s).inKeyOrder.toList := by
    refine (List.perm_ext_iff_of_nodup (hnodup hsorted) (hnodup hkeys)).mpr fun r' => ?_
    rw [List.mem_map, Array.mem_toList_iff, OffsetIndex.mem_inKeyOrder]
    constructor
    · rintro ⟨r, hr, rfl⟩
      obtain ⟨o, -, hfound⟩ := hfind hr
      exact ⟨_, hfound⟩
    · rintro ⟨key, hkey⟩
      have hfound := hvalid.find?_of_get? hkey
      obtain ⟨-, r, x, hx, ho, -⟩ := ha.on.find (Option.isSome_iff_exists.mpr ⟨r', hfound⟩)
      have hr : r ∈ (g.entities s).order.toList :=
        Array.mem_toList_iff.mpr (hg.sound.mem_order.mpr (Graph.has_of_get? hx))
      obtain ⟨o', ho', hfound'⟩ := hfind hr
      cases ho.symm.trans ho'
      exact ⟨r, hr, Option.some.inj (hfound'.symm.trans hfound)⟩
  have hsame : (g.entities s).order.toList.map counterpart =
      (a.known.get s).inKeyOrder.toList := by
    refine List.Perm.eq_of_pairwise ?_ hsorted hkeys hperm
    rintro r r' - - ⟨o, o', ho, ho', hlt⟩ ⟨q', q, hq', hq, hlt'⟩
    cases hvalid.find_inj hs ho hq
    cases hvalid.find_inj hs ho' hq'
    omega
  rw [← hsame, List.forall₂_map_right_iff, List.forall₂_same]
  exact fun r hr => hcounterpart r (hg.sound.mem_order.mp (Array.mem_toList_iff.mp hr))

/-- The item that has been read for another one says the same. -/
theorem rel_get? (hs : s.rowSize? = none) {r r' : Ref s}
    (hpair : l.pairing (a.view source.data) s r r') :
    Option.Rel (s.Mirrors (l.pairing (a.view source.data))) (g.get? r) (a.graph.get? r') := by
  have hr : g.Has s r := by
    unfold Layout.pairing at hpair
    rw [hs] at hpair
    obtain ⟨o, ho, -⟩ := hpair
    exact ((h.assigned_iff s hs r).mp ⟨o, ho⟩).has
  obtain ⟨x, hx⟩ := Graph.has_iff_exists.mp hr
  obtain ⟨x', hx', hmirrors⟩ := ha.exists_mirror h hg hp hx hpair
  rw [hx, hx']
  exact .some hmirrors

/-- The tables are read row by row. -/
theorem forall₂_items (hs : s.rowSize? ≠ none) :
    List.Forall₂ (s.Mirrors (l.pairing (a.view source.data))) (g.entities s).items.toList
      (a.graph.entities s).items.toList := by
  have hcount : (g.entities s).items.toList.length = (a.graph.entities s).items.toList.length := by
    rw [Array.length_toList, Array.length_toList]
    exact (ha.count_row hs).symm
  refine List.forall₂_iff_get.mpr ⟨hcount, fun i hi hi' => ?_⟩
  have hpos : (Ref.ofPos i : Ref s).pos = i := by
    rw [Array.length_toList] at hi
    exact Ref.pos_ofPos (hi.trans (hg.sound.coherent s).size_lt)
  have hget (g' : Graph) (hi : i < (g'.entities s).items.toList.length) :
      g'.get? (.ofPos i : Ref s) = some ((g'.entities s).items.toList.get ⟨i, hi⟩) := by
    unfold Graph.get? Collection.get?
    rw [hpos, ← Array.getElem?_toList, List.getElem?_eq_getElem hi]
    rfl
  have hpair : l.pairing (a.view source.data) s (.ofPos i) (.ofPos i) := by
    unfold Layout.pairing
    cases hrow : s.rowSize? with
    | some n => rfl
    | none => exact absurd hrow hs
  obtain ⟨x', hx', hmirrors⟩ := ha.exists_mirror h hg hp (hget g hi) hpair
  cases hx'.symm.trans (hget a.graph hi')
  exact hmirrors

/-- Every class has as many members as the one that has been read for it. -/
theorem memberCounts :
    a.graph.classDefs.items.map a.graph.memberCount = g.classDefs.items.map g.memberCount := by
  refine Array.toList_inj.mp ?_
  rw [Array.toList_map, Array.toList_map]
  refine List.forall₂_eq_eq_eq ▸ List.forall₂_map_left_iff.mpr (List.forall₂_map_right_iff.mpr ?_)
  refine (List.Forall₂.flip (ha.forall₂_items h hg hp (s := .classDef) (by decide))).imp ?_
  rintro c' c ⟨-, -, -, -, -, -, hdata, -⟩
  have hmembers := rel_bind hdata fun r r' hr => ha.rel_get? h hg hp rfl hr
  unfold Graph.memberCount
  generalize c.classData.bind g.get? = x at hmembers ⊢
  generalize c'.classData.bind a.graph.get? = x' at hmembers ⊢
  cases hmembers with
  | none => rfl
  | some hxy =>
    obtain ⟨hs, hi, hd, hv⟩ := hxy
    simp only [Option.map_some, Option.getD_some, ClassData.memberCount, size_eq_of_forall₂ hs,
      size_eq_of_forall₂ hi, size_eq_of_forall₂ hd, size_eq_of_forall₂ hv]

end Assembly.UpTo

end DexGraph
