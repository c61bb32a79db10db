import DexGraph.Proofs.Assembly.Completion
import DexGraph.Proofs.Assembly.Integrity
import DexGraph.Proofs.Writing.Frame

/-!
# The graph of a fresh image

From an image in which a well-formed graph has been laid out anew a graph is read again, and it
mirrors the one that was written (`FreshImage.exists_mirror`): the entries of the tables correspond
by index and the data items in the order of their offsets, and this is the order in which they had
been laid out. So the image is a fixed point: laying out anew what is read from it gives the same
image again (`Dex.write_relayout_stable`).
-/

namespace DexGraph

/-- At first nothing has been read. -/
theorem Assembly.upTo_start (source : Source) (g : Graph) (l : Layout) :
    (start source.header).UpTo source g l 0 := by
  have hrows : (g.chart l 0).rows = fun _ => 0 := by
    funext s
    simp only [Graph.chart, Nat.not_lt_zero, if_false]
  refine ⟨hrows ▸ Build.built_start source source.header 18,
    ⟨fun s _ => ?_, fun {s o} hfound => ?_⟩, .refl _⟩
  · rw [hrows]
    exact Nat.zero_le _
  · have hnone : ((start source.header).view source.data).find? s o = none := by
      simp only [view, start, PerSection.get_replicate]
      rfl
    rw [hnone] at hfound
    cases hfound

namespace FreshImage

open Build

variable {source : Source} {g : Graph} {l : Layout} {blocks : List Block}
  (h : FreshImage g l source.data blocks) (hg : g.WellFormed) (hp : source.Presents g l)
include h hg hp

/-- Table by table everything is read, and then the assembly is completed. -/
theorem establishes_all (hload : source.options.loadHiddenapi = true) :
    Establishes source (fun _ => False) Build.all (fun _ a' =>
      ∃ a : Assembly, a.UpTo source g l 8 ∧ a.Completes g l a') (.start source.header) := by
  have hsize := h.size_lt
  have hhandles (k : Nat) : (g.chart l k).rows .methodHandle = 0 ∨
      (g.chart l k).rows .methodHandle = source.rowCount .methodHandle := by
    rw [hp.rowCount h hg.sound (by decide)]
    simp only [Graph.chart]
    split
    · exact .inr rfl
    · exact .inl rfl
  unfold Build.all
  rw [establishes_bind, establishes_read]
  have hstart := Assembly.upTo_start source g l
  refine (h.establishes_turn (s := .stringId) hg hp hstart (by decide) rfl (.inl (by decide))
    (establishes_stringIds hsize hstart.built (hhandles 0) (show 1 ≤ 18 by decide))).bind
    fun _ a ha => ?_
  refine (h.establishes_turn (s := .typeId) hg hp ha (by decide) rfl (.inl (by decide))
    (establishes_typeIds ha.built (hhandles 1))).bind fun _ a ha => ?_
  refine (h.establishes_turn (s := .protoId) hg hp ha (by decide) rfl (.inl (by decide))
    (establishes_protoIds hsize ha.built (hhandles 2) (show 4 ≤ 18 by decide))).bind
    fun _ a ha => ?_
  refine (h.establishes_turn (s := .fieldId) hg hp ha (by decide) rfl (.inl (by decide))
    (establishes_fieldIds ha.built (hhandles 3))).bind fun _ a ha => ?_
  refine (h.establishes_turn (s := .methodId) hg hp ha (by decide) rfl (.inl (by decide))
    (establishes_methodIds ha.built (hhandles 4))).bind fun _ a ha => ?_
  refine (h.establishes_turn (s := .classDef) hg hp ha (by decide) rfl (.inr rfl)
    (establishes_classDefs hsize ha.built (hhandles 5) (Nat.le_refl 18))).bind fun _ a ha => ?_
  refine (h.establishes_turn (s := .methodHandle) hg hp ha (by decide) rfl (.inl (by decide))
    (establishes_methodHandles ha.built)).bind fun _ a ha => ?_
  refine (h.establishes_turn (s := .callSiteId) hg hp ha (by decide) rfl (.inl (by decide))
    (establishes_callSiteIds hsize ha.built (hhandles 7) (show 11 ≤ 18 by decide))).bind
    fun _ a ha => ?_
  rw [hload, if_pos rfl]
  exact (ha.establishes_complete h hg hp).mono fun _ a' hcomplete => ⟨a, ha, hcomplete⟩

end FreshImage

/-! ## The mirror -/

namespace Assembly.Completes

variable {source : Source} {g : Graph} {l : Layout} {blocks : List Block} {a a' : Assembly}
  {s : Section} (hc : a.Completes g l a') (ha : a.UpTo source g l 8)
include hc

theorem items : (a'.graph.entities s).items = (a.graph.entities s).items := by
  cases hs : s.rowSize? with
  | none =>
    rw [hc.item s hs]
    rfl
  | some n => rw [hc.row s (by simp [hs])]

theorem get? (r : Ref s) : a'.graph.get? r = a.graph.get? r := by
  unfold Graph.get? Collection.get?
  rw [hc.items]

include ha

/-- What has been read from the image of a graph mirrors it. -/
theorem mirrors (h : FreshImage g l source.data blocks) (hg : g.WellFormed)
    (hp : source.Presents g l) : g.Mirrors a'.graph (l.pairing (a.view source.data)) where
  magic := (hc.magic.trans (ha.beside.magic.trans hp.header.magic)).symm
  endianTag := (hc.endianTag.trans (ha.beside.endianTag.trans hp.header.endianTag)).symm
  linkData := hc.linkData.symm
  hiddenapi := hc.hiddenapi.symm
  count s := by
    have hcount : a'.graph.count s = a.graph.count s := congrArg Array.size hc.items
    rw [hcount]
    cases hs : s.rowSize? with
    | some n => exact (ha.count_row (by simp [hs])).symm
    | none =>
      have hlength := (ha.forall₂_inKeyOrder h hg hp hs).length_eq
      have hsorted := ((ha.built.valid.coherent s).reorder (a.known.get s).inKeyOrder).size_order
      rw [Array.length_toList, Array.length_toList,
        ← ha.built.valid.order_sort hs (ha.built.valid.coherent s) rfl,
        (hg.sound.coherent s).size_order] at hlength
      exact hlength.trans hsorted
  rows s hs r := by
    unfold Layout.pairing
    cases hrow : s.rowSize? with
    | some n => rfl
    | none => exact absurd hrow hs
  unique hr hq := ha.pairing_unique h hg hr hq
  items s hs := by
    rw [hc.items]
    exact ha.forall₂_items h hg hp hs
  order s hs := by
    rw [hc.item s hs, ha.built.valid.order_sort hs (ha.built.valid.coherent s) rfl]
    exact ha.forall₂_inKeyOrder h hg hp hs
  content hs hr := by
    rw [hc.get?]
    exact ha.rel_get? h hg hp hs hr

end Assembly.Completes

/-! ## Laying out a second time -/

/-- Bodies that correspond are used both or neither. -/
theorem Graph.Mirrors.contains_liveCode {g g' : Graph} {ρ : Pairing} (h : g.Mirrors g' ρ)
    (hg : g.Sound) (hg' : g'.Sound) {r r' : Ref .codeItem} (hr : ρ _ r r') :
    g.liveCode.contains r.slot = g'.liveCode.contains r'.slot := by
  rw [Bool.eq_iff_iff, contains_liveCode_iff hg, contains_liveCode_iff hg']
  have huses (g : Graph) (hg : g.Sound) (r : Ref .codeItem) : g.UsesBody r ↔
      ∃ c ∈ g.classDatas.order.toList, ∃ x, g.get? c = some x ∧
        ∃ m ∈ x.allMethods.toList, m.body? = some r := by
    unfold UsesBody
    simp only [Array.mem_toList_iff]
    exact exists_congr fun c =>
      ⟨fun ⟨x, hx, hm⟩ => ⟨hg.mem_order.mpr (has_of_get? hx), x, hx, hm⟩,
        fun ⟨_, x, hx, hm⟩ => ⟨x, hx, hm⟩⟩
  rw [huses g hg, huses g' hg']
  refine exists_mem_iff (h.order .classData rfl) fun c c' hc => ?_
  have hmembers := h.content rfl hc
  generalize g.get? c = x at hmembers ⊢
  generalize g'.get? c' = x' at hmembers ⊢
  cases hmembers with
  | none => simp
  | some hxy =>
    obtain ⟨-, -, hd, hv⟩ := hxy
    simp only [Option.some.injEq, exists_eq_left', ClassData.allMethods, Array.toList_append]
    exact exists_mem_iff (List.rel_append hd hv) fun m m' hm => h.eq_some_iff hm.2.2 hr

namespace FreshImage

variable {g : Graph} {l : Layout} {image : Bytes} {blocks : List Block}

/-- The header and the map list of a fresh image tell of the graph. -/
theorem exists_presents (h : FreshImage g l image blocks) (hg : g.WellFormed)
    (options : BuildOptions) : ∃ header map, Image.load image = .ok ⟨image, header⟩ ∧
      (⟨image, header⟩ : Image).data = image ∧
      MapList.read image header.mapOffset = .ok map ∧
      Source.Presents ⟨image, header, map, options⟩ g l := by
  obtain ⟨header, hheader, hload, hdata⟩ := h.exists_load hg.acceptable
  obtain ⟨map, hmap, hread, -⟩ := h.exists_mapList
  have hdescribes : header.Describes g l :=
    Writer.describes_of_headerOf hheader fun s hs hcount => Option.isSome_iff_exists.mpr
      ((h.named_iff s).mpr (.inl ⟨by revert hs; cases s <;> decide, hcount⟩))
  refine ⟨header, map, hload, hdata, ?_, hdescribes, fun e => h.mem_entries_iff hg.sound hmap⟩
  rw [hdescribes.mapOffset]
  exact hread

/-- A fresh image is read without a refusal: the tables one after the other, and then the rest. -/
theorem exists_completed (h : FreshImage g l image blocks) (hg : g.WellFormed)
    {options : BuildOptions} (hoptions : options.loadHiddenapi = true) :
    ∃ (source : Source) (a a' : Assembly), source.data = image ∧ source.options = options ∧
      Image.load image = .ok ⟨image, source.header⟩ ∧
      Dex.ofImage options ⟨image, source.header⟩ = .ok ⟨a'.graph, a'.layout, {}⟩ ∧
      Build.all source (.start source.header) = .ok ((), a') ∧ source.Presents g l ∧
      a.UpTo source g l 8 ∧ a.Completes g l a' := by
  obtain ⟨header, map, hload, hdata, hmap, hp⟩ := h.exists_presents hg options
  have hall := FreshImage.establishes_all h hg hp hoptions
  unfold Build.Establishes at hall
  cases hrun : Build.all ⟨image, header, map, options⟩ (.start header) with
  | error e =>
    rw [hrun] at hall
    exact hall.elim
  | ok out =>
    rw [hrun] at hall
    obtain ⟨a, ha, hcomplete⟩ := hall
    refine ⟨⟨image, header, map, options⟩, a, out.2, rfl, rfl, hload, ?_, hrun, hp, ha, hcomplete⟩
    rw [Dex.ofImage_eq, hdata, hmap]
    dsimp only
    rw [hrun]

/-- From a fresh image a graph is read that mirrors the one that was laid out. -/
theorem exists_mirror (h : FreshImage g l image blocks) (hg : g.WellFormed)
    {options : BuildOptions} (hoptions : options.loadHiddenapi = true) :
    ∃ (loaded : Image) (d : Dex) (ρ : Pairing), Image.load image = .ok loaded ∧
      Dex.ofImage options loaded = .ok d ∧ g.Mirrors d.graph ρ ∧
      (g.hiddenapi.isSome → d.layout.hiddenapi.size = l.hiddenapi.size) := by
  obtain ⟨source, a, a', rfl, rfl, hload, hread, -, hp, ha, hcomplete⟩ :=
    h.exists_completed hg hoptions
  exact ⟨_, _, _, hload, hread, hcomplete.mirrors ha h hg hp, hcomplete.hiddenapiSize⟩

end FreshImage

namespace Dex

/-- When a file with a well-formed graph has been laid out anew, the image can be read, with either
set of options, and what is read from it is laid out anew as the same image. -/
theorem write_relayout_stable {d : Dex} (hd : d.graph.WellFormed) {image : Bytes}
    (hwrite : (d.write .relayout).1 = .ok image) :
    ∀ options ∈ [BuildOptions.preserving, .relayout], ∃ loaded d',
      Image.load image = .ok loaded ∧ ofImage options loaded = .ok d' ∧
        (d'.write .relayout).1 = .ok image := by
  intro options hoptions
  have hload : options.loadHiddenapi = true := by
    revert options
    decide
  obtain ⟨l, hl⟩ : ∃ l, d.graph.write .relayout d.layout = (.ok image, l) :=
    ⟨_, Prod.ext hwrite rfl⟩
  obtain ⟨blocks, himage⟩ := Graph.write_relayout hd.sound hl
  obtain ⟨loaded, d', ρ, hloaded, hd', hmirrors, hsize⟩ := himage.exists_mirror hd hload
  have hsound : d'.graph.Sound := (ofImage_intact hd').sound
  -- The size that is read for the hidden-API section is the one with which it was written.
  have hitem (flags : HiddenApi) (hflags : d.graph.hiddenapi = some flags) :
      flags.encode d.layout.hiddenapi.size = flags.encode d'.layout.hiddenapi.size := by
    have hframe := (d.graph.frame_write .relayout d.layout).hiddenapiItem flags hflags
    rw [hl] at hframe
    rw [hsize (hflags ▸ rfl), hframe]
  refine ⟨loaded, d', hloaded, hd', ?_⟩
  calc (d'.write .relayout).1
      = (d'.graph.write .relayout d'.layout).1 := rfl
    _ = (d.graph.write .relayout d.layout).1 :=
        (hmirrors.write_relayout (hmirrors.contains_liveCode hd.sound hsound) hitem).symm
    _ = .ok image := hwrite

/-- Once the graph with one method has been laid out, it is laid out in the same way again. -/
theorem write_oneMethod_stable : Graph.oneMethod.WellFormed ∧
    ∃ image, (write ⟨.oneMethod, .empty, {}⟩ .relayout).1 = .ok image ∧
      ∀ options ∈ [BuildOptions.preserving, .relayout], ∃ loaded d',
        Image.load image = .ok loaded ∧ ofImage options loaded = .ok d' ∧
          (d'.write .relayout).1 = .ok image := by
  obtain ⟨image, l, hrun⟩ := Graph.write_oneMethod
  have hwrite : (write ⟨.oneMethod, .empty, {}⟩ .relayout).1 = .ok image := by
    unfold write
    rw [hrun]
  exact ⟨Graph.oneMethod_wellFormed, image, hwrite,
    write_relayout_stable Graph.oneMethod_wellFormed hwrite⟩

end Dex

end DexGraph
