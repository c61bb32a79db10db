import DexGraph.Proofs.Assembly.CanonicalEntities
import DexGraph.Proofs.Assembly.CapturedLayout

/-!
# Map lists in canonical form

A map list is made for a graph in one way only. `MapList.Suits` says which one an image may have: it
names each kind of which there are items, with their number, and nothing else, and its entries are
sorted. If the image has such a map list and the reserved fields are zero, then the map list that is
made for the graph and the layout that have been read is the one of the image
(`Assembly.Outlined.mapListOf_eq`), and its bytes are those of the image (`MapList.spells_encode`).
-/

namespace DexGraph

variable {data : Bytes} {p q r : Nat} {u : Unit} {g : Graph} {l : Layout} {map : MapList}

/-! ## The bytes -/

/-- An entry of the map list whose reserved field is zero. -/
def MapEntry.canonical : Decoder Unit := do
  let _ ← Decoder.halfWord
  let behindCode ← Decoder.halfWord
  Decoder.require (behindCode = 0)
  let _ ← Decoder.word
  let _ ← Decoder.word
  return ()

/-- A map list whose reserved fields are zero. -/
def MapList.canonical : Decoder Unit := do
  let count ← Decoder.word
  times count.toNat MapEntry.canonical

theorem MapEntry.spells_row {e : MapEntry} (h : Decoder.Reads Row.decode data p e q)
    (hwalk : canonical.Reads data p u r) :
    r = q ∧ data.Spells p q (.ok (Row.encode e).toList) := by
  obtain ⟨hcode, -, hsize, hoffset, rfl⟩ := Row.reads_mapEntry_iff.mp h
  simp only [canonical, Decoder.reads_halfWord_bind_iff, Decoder.reads_require_bind_iff,
    Decoder.reads_word_bind_iff, Decoder.reads_pure_iff] at hwalk
  obtain ⟨_, -, _, hbehindCode, rfl, _, -, _, -, -, rfl⟩ := hwalk
  refine ⟨rfl, _, rfl, ?_, by rw [Array.length_toList, Row.Readable.size_encode]; rfl⟩
  rw [Row.toList_encode]
  simp only [Row.fields, List.flatMap_cons, List.flatMap_nil, List.append_nil,
    Bytes.holdsAt_append, Array.length_toList, Bytes.size_ofHalfWord, Bytes.size_ofWord]
  exact ⟨hcode, hbehindCode, hsize, hoffset⟩

theorem MapList.spells_entries {entries : List MapEntry}
    (h : Decoder.ReadsEach Row.decode data p entries q)
    (hwalk : Decoder.ReadsEach MapEntry.canonical data p (List.replicate entries.length ()) r) :
    data.Spells p q (.ok (entries.flatMap fun e => (Row.encode e).toList)) := by
  induction entries generalizing p with
  | nil =>
    obtain rfl : q = p := h
    exact Bytes.spells_nil
  | cons e rest ih =>
    obtain ⟨m, he, hrest⟩ := h
    obtain ⟨_, he', hrest'⟩ := hwalk
    obtain ⟨rfl, hspells⟩ := MapEntry.spells_row he he'
    exact hspells.append (ih hrest hrest')

/-- A map list whose reserved fields are zero stands as it is written. -/
theorem MapList.spells_encode {offset : UInt32} (h : read data offset = .ok map)
    (hwalk : canonical.Reads data offset.toNat u r) :
    ∃ bytes, map.encode = .ok bytes ∧ data.HoldsAt offset.toNat bytes.toList := by
  unfold read at h
  obtain ⟨⟨count, start⟩, hcount, h⟩ := Except.bind_eq_ok_iff.mp h
  dsimp only at h
  split at h
  · cases h
  obtain ⟨⟨entries, stop⟩, hentries, hpure⟩ := Except.bind_eq_ok_iff.mp h
  cases hpure
  obtain ⟨hsize, heach⟩ := Decoder.reads_gather_iff.mp hentries
  obtain ⟨count', _, hcount', htimes⟩ := Decoder.reads_bind_iff.mp hwalk
  obtain ⟨rfl, rfl⟩ := hcount'.unique hcount
  rw [Decoder.reads_times_iff, ← hsize, ← Array.length_toList] at htimes
  obtain ⟨_, ⟨⟩, hat, -⟩ := (Decoder.spells_word hcount').append (spells_entries heach htimes)
  have hword : entries.size.toUInt32 = count' := by
    rw [hsize, Nat.toUInt32_eq, UInt32.ofNat_toNat]
  refine ⟨List.toArray _, encode_eq_ok_iff.mpr ⟨hsize ▸ count'.toNat_lt, ?_⟩, hat⟩
  rw [hword]

/-! ## The entries -/

/-- The kinds of which an image of the graph has items, and how many. -/
def Graph.kindCounts (g : Graph) : List (MapItemType × Nat) :=
  ([(MapItemType.headerItem, 1), (.mapList, 1),
    (.hiddenapiClassData, if g.hiddenapi.isSome then 1 else 0)] ++
    (Section.tables ++ Section.dataSections).map fun s : Section => (s.mapItemType, g.count s)).filter
      fun k => k.2 ≠ 0

/-- The map list names each kind of which an image of the graph has items, once and with their
number, and nothing else. Its entries are in the order of their offsets, and in that of their codes
where these are the same. -/
structure MapList.Suits (map : MapList) (g : Graph) : Prop where
  kinds : (map.entries.toList.map fun e => (e.code, e.size.toNat)).Perm
    (g.kindCounts.map fun k => (k.1.code, k.2))
  sorted : map.entries.toList.Pairwise fun e e' => e.le e' = true

theorem Graph.nodup_kindCounts (g : Graph) : (g.kindCounts.map fun k => k.1.code).Nodup := by
  refine List.Nodup.sublist (List.filter_sublist.map _) ?_
  simp only [List.map_append, List.map_cons, List.map_nil, List.map_map]
  change ([MapItemType.headerItem.code, MapItemType.mapList.code,
    MapItemType.hiddenapiClassData.code] ++
      (Section.tables.map fun s => s.mapItemType.code) ++
      (Section.dataSections.map fun s => s.mapItemType.code)).Nodup
  decide

/-- Where everything has its place, the kinds with items are those of the candidates that are not
empty. -/
theorem Graph.mem_kindCounts (hplaced : ∀ s, (MapCandidate.ofSection g l s).count = g.count s)
    {kind : MapItemType} {n : Nat} :
    (kind, n) ∈ g.kindCounts ↔ n ≠ 0 ∧ ∃ c ∈ mapCandidates g l, c.kind = kind ∧ c.count = n := by
  have hsection (s : Section) : s ∈ Section.tables ++ Section.dataSections := by
    cases s <;> decide
  simp only [kindCounts, List.mem_filter, List.mem_append (s := [_, _, _]), List.mem_cons,
    List.not_mem_nil, or_false, List.mem_map, decide_eq_true_eq, mem_mapCandidates, Prod.mk.injEq]
  constructor
  · rintro ⟨(⟨rfl, rfl⟩ | ⟨rfl, rfl⟩ | ⟨rfl, rfl⟩) | ⟨s, -, rfl, rfl⟩, hn⟩
    · exact ⟨hn, _, .inl rfl, rfl, rfl⟩
    · exact ⟨hn, _, .inr (.inr (.inl rfl)), rfl, rfl⟩
    · have hsome : g.hiddenapi.isSome := by
        by_contra hnone
        exact hn (if_neg hnone)
      exact ⟨hn, _, .inr (.inr (.inr ⟨hsome, rfl⟩)), rfl, (if_pos hsome).symm⟩
    · exact ⟨hn, _, .inr (.inl ⟨s, rfl⟩), rfl, hplaced s⟩
  · rintro ⟨hn, c, rfl | ⟨s, rfl⟩ | rfl | ⟨hsome, rfl⟩, rfl, rfl⟩
    · exact ⟨.inl (.inl ⟨rfl, rfl⟩), hn⟩
    · exact ⟨.inr ⟨s, hsection s, rfl, (hplaced s).symm⟩, hn⟩
    · exact ⟨.inl (.inr (.inl ⟨rfl, rfl⟩)), hn⟩
    · exact ⟨.inl (.inr (.inr ⟨rfl, (if_pos hsome).symm⟩)), hn⟩

namespace MapList.Suits

variable (h : map.Suits g)
include h

theorem nodup_codes : (map.entries.toList.map (·.code)).Nodup := by
  have hperm := h.kinds.map Prod.fst
  simp only [List.map_map, Function.comp_def] at hperm
  exact hperm.nodup_iff.mpr g.nodup_kindCounts

/-- A kind is named once. -/
theorem eq_of_code_eq {e e' : MapEntry} (he : e ∈ map.entries) (he' : e' ∈ map.entries)
    (hcode : e.code = e'.code) : e = e' :=
  List.inj_on_of_nodup_map h.nodup_codes (Array.mem_toList_iff.mpr he)
    (Array.mem_toList_iff.mpr he') hcode

/-- An entry is found under its kind. -/
theorem find?_eq {e : MapEntry} (he : e ∈ map.entries) {kind : MapItemType}
    (hcode : e.code = kind.code) : map.find? kind = some e := by
  cases hfind : map.find? kind with
  | none => exact absurd hcode (by simpa using Array.find?_eq_none.mp hfind e he)
  | some e' =>
    have hcode' : e'.code = kind.code := by simpa using Array.find?_some hfind
    rw [h.eq_of_code_eq (Array.mem_of_find?_eq_some hfind) he (hcode'.trans hcode.symm)]

/-- The map list that is made for a graph is the one that names its kinds, if it has the offsets. -/
theorem mapListOf_eq (hplaced : ∀ s, (MapCandidate.ofSection g l s).count = g.count s)
    (hoffset : ∀ e ∈ map.entries, ∀ c ∈ mapCandidates g l, e.code = c.kind.code →
      c.offset = some e.offset) : mapListOf g l = .ok map := by
  have hkinds (code : UInt16) (n : Nat) : (∃ e ∈ map.entries, e.code = code ∧ e.size.toNat = n) ↔
      n ≠ 0 ∧ ∃ c ∈ mapCandidates g l, c.kind.code = code ∧ c.count = n := by
    have hmem := h.kinds.mem_iff (a := (code, n))
    simp only [List.mem_map, Array.mem_toList_iff, Prod.mk.injEq, Prod.exists,
      Graph.mem_kindCounts hplaced] at hmem
    rw [hmem]
    constructor
    · rintro ⟨_, _, ⟨hn, c, hc, rfl, rfl⟩, rfl, rfl⟩
      exact ⟨hn, c, hc, rfl, rfl⟩
    · rintro ⟨hn, c, hc, rfl, rfl⟩
      exact ⟨_, _, ⟨hn, c, hc, rfl, rfl⟩, rfl, rfl⟩
  cases hlist : mapListOf g l with
  | error e =>
    -- A candidate that is not empty has the offset of an entry, and its number is a word.
    obtain ⟨c, hc, hentry⟩ := exists_of_mapListOf_eq_error hlist
    by_cases hcount : c.count = 0
    · simp [MapCandidate.entry?, hcount] at hentry
    · obtain ⟨e, he, hcode, hsize⟩ := (hkinds c.kind.code c.count).mpr ⟨hcount, c, hc, rfl, rfl⟩
      rw [MapCandidate.entry?_eq_ok_iff.mpr (.inr ⟨hcount, e.size, e.offset,
        hoffset e he c hc hcode, hsize.symm, rfl⟩)] at hentry
      cases hentry
  | ok list =>
    have hmem (e : MapEntry) : e ∈ list.entries ↔ e ∈ map.entries := by
      rw [mem_entries_mapListOf hlist]
      constructor
      · rintro ⟨c, hc, hcount, ho, hsize, hcode⟩
        obtain ⟨e', he', hcode', hsize'⟩ :=
          (hkinds c.kind.code c.count).mpr ⟨hcount, c, hc, rfl, rfl⟩
        have ho' := hoffset e' he' c hc hcode'
        obtain ⟨code, size, offset⟩ := e
        obtain ⟨code', size', offset'⟩ := e'
        obtain rfl : code = code' := hcode.trans hcode'.symm
        obtain rfl : size = size' := UInt32.toNat_inj.mp (hsize.symm.trans hsize'.symm)
        obtain rfl : offset = offset' := Option.some.inj (ho.symm.trans ho')
        exact he'
      · intro he
        obtain ⟨hne, c, hc, hcode, hcount⟩ := (hkinds e.code e.size.toNat).mp ⟨e, he, rfl, rfl⟩
        exact ⟨c, hc, hcount ▸ hne, hoffset e he c hc hcode.symm, hcount, hcode.symm⟩
    have hpairwise := pairwise_entries_mapListOf hlist
    have hnodup : list.entries.toList.Nodup :=
      (hpairwise.imp fun h heq => h.2 (congrArg MapEntry.code heq))
    have hperm : list.entries.toList.Perm map.entries.toList :=
      (List.perm_ext_iff_of_nodup hnodup h.nodup_codes.of_map).mpr fun e => by
        rw [Array.mem_toList_iff, Array.mem_toList_iff, hmem]
    have heq := hperm.eq_of_pairwise (fun _ _ _ _ => MapEntry.le_antisymm)
      (hpairwise.imp fun h => h.1) h.sorted
    exact congrArg (fun entries => Except.ok (MapList.mk entries)) (Array.toList_inj.mp heq)

end MapList.Suits

/-! ## What the map list of an image says -/

/-- A table that the header does not name is named by the map list. -/
theorem Source.range?_eq {source : Source} {s : Section} (hs : s.rowSize? ≠ none) :
    source.range? s = (source.header.table? s).or
      ((source.map.find? s.mapItemType).map fun e => ⟨e.size, e.offset⟩) := by
  cases s <;> first | rfl | exact absurd rfl hs

namespace Assembly.Outlined

variable {source : Source} {a : Assembly} (h : a.Outlined source)
  (hkeep : source.options.keepOffsets = true) (hmap : source.map.Suits a.graph)
include h hkeep hmap

/-- What may get an entry has the offset that the entry of its kind states. -/
theorem offset_eq {e : MapEntry} (he : e ∈ source.map.entries) {c : MapCandidate}
    (hc : c ∈ mapCandidates a.graph a.layout) (hcode : e.code = c.kind.code) :
    c.offset = some e.offset := by
  have hkind : e.kind? = some c.kind := by
    rw [MapEntry.kind?, hcode, MapItemType.ofCode?_code]
  have hmapOffset : a.layout.mapOffset = source.header.mapOffset := by
    rw [h.rest]
    rfl
  rcases mem_mapCandidates.mp hc with rfl | ⟨s, rfl⟩ | rfl | ⟨hsome, rfl⟩
  · obtain ⟨-, hoffset⟩ := h.stated e he _ _ hkind rfl
    rw [hoffset]
  · change a.layout.sectionOffset s = some e.offset
    cases hs : s.rowSize? with
    | none =>
      obtain ⟨e', he', hkind', hoffset⟩ := h.named e he s hs hkind
      have hcode' : e'.code = s.mapItemType.code := by
        have := List.find?_some hkind'
        exact (beq_iff_eq.mp this).symm
      rw [hoffset, hmap.eq_of_code_eq he' he (hcode'.trans hcode.symm)]
    | some n =>
      have hs : s.rowSize? ≠ none := by simp [hs]
      cases htable : source.header.table? s with
      | some range =>
        obtain ⟨-, hoffset⟩ := h.stated e he _ _ hkind
          ((Build.expectedRange?_row source.header hs).trans (by rw [htable, Option.getD_some]))
        rw [hoffset]
        exact h.table s range (by rw [Source.range?_eq hs, htable]; rfl)
      | none =>
        have hfind : source.map.find? s.mapItemType = some e := hmap.find?_eq he hcode
        have hrange : source.range? s = some ⟨e.size, e.offset⟩ := by
          rw [Source.range?_eq hs, htable, hfind]
          rfl
        exact h.table s _ hrange
  · obtain ⟨-, hoffset⟩ := h.stated e he _ _ hkind rfl
    rw [hoffset, hmapOffset]
  · have hflags := h.hiddenapi
    unfold FlagsRead at hflags
    rw [hmap.find?_eq he hcode] at hflags
    obtain ⟨total, flags, q, -, -, hplace⟩ := hflags
    change a.layout.hiddenapi.offset = _
    rw [hplace, if_pos hkeep]

/-- The map list that is made for what has been read is that of the image. -/
theorem mapListOf_eq
    (hplaced : ∀ s, (MapCandidate.ofSection a.graph a.layout s).count = a.graph.count s) :
    mapListOf a.graph a.layout = .ok source.map :=
  hmap.mapListOf_eq hplaced fun _ he _ hc hcode => h.offset_eq hkeep hmap he hc hcode

end Assembly.Outlined

end DexGraph
