import DexGraph.Proofs.Assembly.Links
import DexGraph.Proofs.Assembly.Tables

/-!
# Exact sharing

While an image is read it is noted which item has been read at which offset, so that no item is
read twice. `Dex.ofImage_sharing` says that the notes are exact, whatever the offsets of the image
are: two pointers to the same section that are met stand for the same item if and only if their
offsets are the same, and a section has one item for every offset at which one has been met. No
image is refused because an item is there twice.
-/

namespace DexGraph

/-- The graph is what the image shows, and has every item of it once. The view says which item lies
at which offset. An annotation set has an annotation for every offset that is stored in it and is
not zero. -/
structure Graph.Shares (g : Graph) (source : Source) (v : View) : Prop where
  graph : v.graph = g
  same_iff : ∀ {s : Section} {o o' : UInt32}, source.Met v ⟨s, o⟩ → source.Met v ⟨s, o'⟩ →
    (v.find? s o = v.find? s o' ↔ o = o')
  none_iff : ∀ {s : Section} {o : UInt32}, source.Met v ⟨s, o⟩ →
    (v.find? s o = none ↔ o = 0 ∧ s ≠ .stringData)
  has_iff : ∀ {s : Section}, s.rowSize? = none → ∀ r : Ref s,
    g.Has s r ↔ ∃! o, source.Met v ⟨s, o⟩ ∧ v.find? s o = some r
  links : ∀ {s : Section} {r : Ref s} {x : s.Content}, g.get? r = some x →
    ∃ p met q, source.Starts v s r p ∧ s.survey.Reads v source.data p (s.bare x) met q ∧
      (∀ t ∈ met, source.Met v t) ∧ s.links x = met.map v.link
  entries : ∀ {r : Ref .annotationSet} {x : AnnotationSet}, g.get? r = some x →
    ∃ (o : UInt32) (stored : Array UInt32) (q : Nat), v.find? .annotationSet o = some r ∧
      (do gather (← Decoder.word).toNat Decoder.word).Reads source.data o.toNat stored q ∧
      x.items.toList.map some = (stored.toList.filter (· ≠ 0)).map (v.find? .annotationItem)

namespace Section

/-- The notes about where members belong are no links. -/
theorem links_bare (s : Section) (x : s.Content) : s.links (s.bare x) = s.links x := by
  by_cases hs : s = .classData
  · subst hs
    change (_ ++ _ : Array MethodItem).toList.map _ = (_ ++ _ : Array MethodItem).toList.map _
    simp [bare, ClassData.bare, Function.comp_def]
  · rw [bare_of_ne hs]

/-- A link holds a data item. -/
theorem rowSize?_of_mem_links {s : Section} {x : s.Content} {l : Link} (h : l ∈ s.links x) :
    l.1.rowSize? = none := by
  cases s with
  | stringId | protoId | callSiteId | codeItem =>
    cases List.mem_singleton.mp h
    rfl
  | classDef =>
    simp only [links, List.mem_cons, List.not_mem_nil, or_false] at h
    rcases h with rfl | rfl | rfl | rfl <;> rfl
  | annotationSet | annotationSetRefList | classData =>
    obtain ⟨y, -, rfl⟩ := List.mem_map.mp h
    rfl
  | annotationsDirectory =>
    simp only [links, List.mem_append, List.mem_singleton, List.mem_map] at h
    rcases h with ((rfl | ⟨e, -, rfl⟩) | ⟨e, -, rfl⟩) | ⟨e, -, rfl⟩ <;> rfl
  | _ => cases h

end Section

namespace Assembly

variable {source : Source} {a classes : Assembly} {s : Section} {t : Pointer}

namespace Valid

variable (h : a.Valid source)
include h

/-- Only pointers to data items are met. -/
theorem rowSize?_of_reads {p q : Nat} {x : s.Content} {met : List Pointer}
    (hx : s.survey.Reads (a.view source.data) source.data p x met q) (ht : t ∈ met) :
    t.target.rowSize? = none := by
  refine Section.rowSize?_of_mem_links (s := s) (x := x) (l := (a.view source.data).link t) ?_
  rw [Section.survey_tells_links (fun _ => h.find_zero) s _ _ _ _ _ hx, List.nil_append]
  exact List.mem_map_of_mem ht

/-- What is read where an entity starts has met the same pointers as the entity. -/
theorem answered_of_reads {r : Ref s} {p q : Nat} {x : s.Content} {met : List Pointer}
    (hr : a.graph.Has s r) (hp : source.Starts (a.view source.data) s r p)
    (hx : s.survey.Reads (a.view source.data) source.data p x met q) (ht : t ∈ met) :
    t.Answered (a.view source.data) := by
  obtain ⟨y, hy⟩ := Graph.has_iff_exists.mp hr
  obtain ⟨p', hp', met', q', hreads, hanswered⟩ := h.shown s r y hy
  have hplace : p = p' := h.starts_unique hp hp'
  subst hplace
  obtain ⟨-, hmet, -⟩ := hx.unique (hreads _ (.refl _))
  exact hanswered t (hmet ▸ ht)

end Valid

namespace Complete

variable (h : a.Complete source classes)
include h

/-- Every entry of a table has its row. -/
theorem starts_of_row {size : Nat} {range : SectionRange} (hs : s.rowSize? = some size)
    (hrange : source.range? s = some range) {i : Nat} (hi : i < range.size.toNat) :
    a.graph.Has s (.ofPos i) ∧
      source.Starts (a.view source.data) s (.ofPos i) (range.offset.toNat + i * size) := by
  have hcount : a.graph.count s = range.size.toNat := by
    rw [h.built.count s (by simp [hs]), Source.rowCount, hrange]
  have hpos : (Ref.ofPos i : Ref s).pos = i :=
    Ref.pos_ofPos (Nat.lt_trans hi range.size.toNat_lt)
  unfold Graph.Has Source.Starts
  rw [hs, hpos, hcount]
  exact ⟨hi, range, hrange, hi, rfl⟩

theorem rowSize?_of_met (ht : source.Met (a.view source.data) t) : t.target.rowSize? = none := by
  obtain ⟨root, ⟨s, size, range, i, x, met, q, -, -, -, hx, hmem⟩, hpath⟩ := ht
  cases hpath with
  | refl => exact h.built.valid.rowSize?_of_reads hx hmem
  | tail _ hlead =>
    obtain ⟨-, y, met', q', hy, hmem'⟩ := hlead
    exact h.built.valid.rowSize?_of_reads hy hmem'

/-- Every pointer that is met stands for an item or for none. -/
theorem answered_of_met (ht : source.Met (a.view source.data) t) :
    t.Answered (a.view source.data) := by
  obtain ⟨root, hroot, hpath⟩ := ht
  cases hpath with
  | refl =>
    obtain ⟨s, size, range, i, x, met, q, hs, hrange, hi, hx, hmem⟩ := hroot
    obtain ⟨hhas, hstarts⟩ := h.starts_of_row hs hrange hi
    exact h.built.valid.answered_of_reads hhas hstarts hx hmem
  | @tail t' _ hpath hlead =>
    obtain ⟨hsome, x, met, q, hx, hmem⟩ := hlead
    obtain ⟨r, hr⟩ := Option.isSome_iff_exists.mp hsome
    have hs := h.rowSize?_of_met ⟨root, hroot, hpath⟩
    refine h.built.valid.answered_of_reads ((h.built.valid.has_iff _ hs r).mpr ⟨_, hr⟩) ?_ hx hmem
    unfold Source.Starts
    rw [hs]
    exact ⟨_, hr, rfl⟩

/-- Everything that the image shows of an entity has been met. -/
theorem met_of_reads {r : Ref s} {p q : Nat} {x : s.Content} {met : List Pointer}
    (hp : source.Starts (a.view source.data) s r p)
    (hx : s.survey.Reads (a.view source.data) source.data p x met q) (ht : t ∈ met) :
    source.Met (a.view source.data) t := by
  unfold Source.Starts at hp
  cases hs : s.rowSize? with
  | none =>
    rw [hs] at hp
    obtain ⟨o, ho, rfl⟩ := hp
    have hsome : ((a.view source.data).find? s o).isSome := Option.isSome_iff_exists.mpr ⟨r, ho⟩
    obtain ⟨root, hroot, hpath⟩ := h.built.met s o hsome _ (.refl _)
    exact ⟨root, hroot, hpath.tail ⟨hsome, x, met, q, hx, ht⟩⟩
  | some size =>
    rw [hs] at hp
    obtain ⟨range, hrange, hi, rfl⟩ := hp
    exact ⟨t, ⟨s, size, range, r.pos, x, met, q, hs, hrange, hi, hx, ht⟩, .refl⟩

theorem shares : a.graph.Shares source (a.view source.data) where
  graph := rfl
  same_iff {s o o'} ho ho' := by
    refine ⟨fun heq => ?_, fun heq => heq ▸ rfl⟩
    cases hfound : (a.view source.data).find? s o with
    | some r =>
      exact h.built.valid.find_inj (h.rowSize?_of_met ho) hfound (heq ▸ hfound)
    | none =>
      have hzero {o : UInt32} (ho : source.Met (a.view source.data) ⟨s, o⟩)
          (hnone : (a.view source.data).find? s o = none) : o = 0 :=
        ((h.answered_of_met ho).resolve_left (by simp [hnone])).1
      rw [hzero ho hfound, hzero ho' (heq ▸ hfound)]
  none_iff {s o} ho := by
    refine ⟨fun hnone => (h.answered_of_met ho).resolve_left (by simp [hnone]), ?_⟩
    rintro ⟨rfl, hs⟩
    exact h.built.valid.find_zero hs
  has_iff {s} hs r := by
    rw [h.built.valid.has_iff s hs r]
    constructor
    · rintro ⟨o, ho⟩
      exact ⟨o, ⟨h.built.met s o (Option.isSome_iff_exists.mpr ⟨r, ho⟩) _ (.refl _), ho⟩,
        fun o' ho' => h.built.valid.find_inj hs ho'.2 ho⟩
    · rintro ⟨o, ⟨-, ho⟩, -⟩
      exact ⟨o, ho⟩
  links {s r x} hx := by
    obtain ⟨p, hp, met, q, hreads, -⟩ := h.built.valid.shown s r x hx
    have hshown := hreads _ (.refl _)
    refine ⟨p, met, q, hp, hshown, fun t ht => h.met_of_reads hp hshown ht, ?_⟩
    rw [← s.links_bare, Section.survey_tells_links (fun _ => h.built.valid.find_zero) s _ _ _ _ _
      hshown, List.nil_append]
  entries {r x} hx := by
    obtain ⟨p, ⟨o, ho, rfl⟩, met, q, hreads, -⟩ := h.built.valid.shown .annotationSet r x hx
    have hshown := hreads _ (.refl _)
    obtain ⟨stored, hstored, rfl⟩ := AnnotationSet.reads_offsets hshown
    refine ⟨o, stored, q, ho, hstored, ?_⟩
    have hlinks := Section.survey_tells_links (fun _ => h.built.valid.find_zero) _ _ _ _ _ _ hshown
    rw [List.nil_append, AnnotationSet.pointers, List.map_map] at hlinks
    have hinj : Function.Injective (Sigma.mk .annotationItem : _ → Link) := sigma_mk_injective
    refine List.map_injective_iff.mpr hinj ?_
    rw [List.map_map, List.map_map]
    exact hlinks

end Complete

end Assembly

/-- Whatever the image, it is not refused because an item is there twice; and a graph that is read
has every item once. -/
theorem Dex.ofImage_sharing (options : BuildOptions) (image : Image) :
    (∃ e, ofImage options image = .error e ∧ ¬ e.IsDuplicate) ∨
    ∃ map d v, MapList.read image.data image.header.mapOffset = .ok map ∧
      ofImage options image = .ok d ∧
      d.graph.Shares ⟨image.data, image.header, map, options⟩ v := by
  rcases ofImage_outcome options image with
    ⟨e, he, hhonest⟩ | ⟨map, hmap, ⟨e, he, hrefuses⟩ | ⟨a, classes, ha, hcomplete⟩⟩
  · exact .inl ⟨e, he, hhonest.not_duplicate⟩
  · exact .inl ⟨e, he, hrefuses.not_duplicate⟩
  · exact .inr ⟨map, _, _, hmap, ha, hcomplete.shares⟩

end DexGraph
