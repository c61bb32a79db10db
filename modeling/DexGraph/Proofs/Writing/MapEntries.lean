import DexGraph.Proofs.Codec.Concat
import DexGraph.Proofs.Graph.References
import DexGraph.Writing.MapEntries
import Mathlib.Data.List.Sort

/-!
# The entries of the map list

The map list of a graph under a layout has one entry for each candidate that is not empty
(`mem_entries_mapListOf`), and no candidate that is not empty may lack its offset.
-/

namespace DexGraph

variable {g : Graph} {l : Layout}

theorem mem_mapCandidates {c : MapCandidate} :
    c ∈ mapCandidates g l ↔ c = ⟨.headerItem, 1, some 0⟩ ∨ (∃ s, c = .ofSection g l s) ∨
      c = ⟨.mapList, 1, some l.mapOffset⟩ ∨
        g.hiddenapi.isSome ∧ c = ⟨.hiddenapiClassData, 1, l.hiddenapi.offset⟩ := by
  unfold mapCandidates
  simp only [List.mem_append, List.mem_singleton, List.mem_map]
  constructor
  · rintro ((((h | ⟨s, -, h⟩) | h) | ⟨s, -, h⟩) | h)
    · exact .inl h
    · exact .inr (.inl ⟨s, h.symm⟩)
    · exact .inr (.inr (.inl h))
    · exact .inr (.inl ⟨s, h.symm⟩)
    · split at h
      · rename_i hflags
        exact .inr (.inr (.inr ⟨by rw [hflags]; rfl, List.mem_singleton.mp h⟩))
      · cases h
  · rintro (h | ⟨s, h⟩ | h | h)
    · exact .inl (.inl (.inl (.inl h)))
    · by_cases hs : s ∈ [Section.stringId, .typeId, .protoId, .fieldId, .methodId, .classDef,
          .callSiteId, .methodHandle]
      · exact .inl (.inl (.inl (.inr ⟨s, hs, h.symm⟩)))
      · refine .inl (.inr ⟨s, ?_, h.symm⟩)
        cases s <;> simp_all
    · exact .inl (.inl (.inr h))
    · obtain ⟨flags, hflags⟩ := Option.isSome_iff_exists.mp h.1
      refine .inr ?_
      rw [hflags]
      exact List.mem_singleton.mpr h.2

theorem MapCandidate.entry?_eq_ok_iff {c : MapCandidate} {e : Option MapEntry} :
    c.entry? = .ok e ↔ c.count = 0 ∧ e = none ∨ c.count ≠ 0 ∧ ∃ size offset,
      c.offset = some offset ∧ c.count = size.toNat ∧ e = some ⟨c.kind.code, size, offset⟩ := by
  unfold entry?
  by_cases hcount : c.count = 0
  · rw [if_pos hcount]
    constructor
    · rintro ⟨⟩
      exact .inl ⟨hcount, rfl⟩
    · rintro (⟨-, rfl⟩ | ⟨h, -⟩)
      · rfl
      · exact absurd hcount h
  · rw [if_neg hcount]
    cases c.offset with
    | none => simp [hcount]
    | some offset =>
      simp only [Except.bind_eq_ok_iff, Except.pure_eq_ok_iff, toWord_eq_ok_iff, hcount, false_and,
        false_or, ne_eq, not_false_eq_true, true_and, Option.some.injEq]
      constructor
      · rintro ⟨size, hsize, rfl⟩
        exact ⟨size, offset, rfl, hsize, rfl⟩
      · rintro ⟨size, _, rfl, hsize, rfl⟩
        exact ⟨size, hsize, rfl⟩

theorem MapCandidate.entry?_eq_error {c : MapCandidate} {e : Error} (h : c.entry? = .error e)
    (he : e.LacksOffset) : c.count ≠ 0 ∧ c.offset = none := by
  unfold entry? at h
  split at h
  · cases h
  · rename_i hcount
    refine ⟨hcount, ?_⟩
    cases hoff : c.offset with
    | none => rfl
    | some offset =>
      simp only [hoff, Except.bind_eq_error_iff, Except.pure_ne_error, and_false, exists_false,
        or_false] at h
      exact absurd he (not_lacksOffset_of_toWord h)

/-- A map list cannot be made only if there is no entry for a section. -/
theorem exists_of_mapListOf_eq_error {e : Error} (h : mapListOf g l = .error e) :
    ∃ c ∈ mapCandidates g l, c.entry? = .error e := by
  simp only [mapListOf, Except.bind_eq_error_iff, Except.pure_ne_error, and_false, exists_false,
    or_false] at h
  generalize mapCandidates g l = cs at h ⊢
  induction cs with
  | nil => cases h
  | cons c cs ih =>
    simp only [List.mapM_cons, Except.bind_eq_error_iff, Except.pure_ne_error, and_false,
      exists_false, or_false] at h
    rcases h with h | ⟨_, -, h⟩
    · exact ⟨c, List.mem_cons_self, h⟩
    · obtain ⟨c', hc', h⟩ := ih h
      exact ⟨c', List.mem_cons_of_mem _ hc', h⟩

/-- A map list cannot be made for want of an offset only if a section that is not empty has
none. -/
theorem mapListOf_eq_error {e : Error} (h : mapListOf g l = .error e) (he : e.LacksOffset) :
    ∃ c ∈ mapCandidates g l, c.count ≠ 0 ∧ c.offset = none := by
  obtain ⟨c, hc, h⟩ := exists_of_mapListOf_eq_error h
  exact ⟨c, hc, c.entry?_eq_error h he⟩

/-- The map list has an entry for each candidate that is not empty. -/
theorem mem_entries_mapListOf {list : MapList} (h : mapListOf g l = .ok list) {e : MapEntry} :
    e ∈ list.entries ↔ ∃ c ∈ mapCandidates g l, c.count ≠ 0 ∧ c.offset = some e.offset ∧
      c.count = e.size.toNat ∧ e.code = c.kind.code := by
  simp only [mapListOf, Except.bind_eq_ok_iff, Except.mapM_eq_ok_iff, Except.pure_eq_ok_iff] at h
  obtain ⟨found, hfound, rfl⟩ := h
  have hmem : some e ∈ found ↔ ∃ c ∈ mapCandidates g l, c.entry? = .ok (some e) := by
    generalize mapCandidates g l = cs at hfound
    induction hfound with
    | nil => simp
    | cons hc _ ih =>
      rw [List.mem_cons, ih, List.exists_mem_cons_iff, hc, Except.ok.injEq, eq_comm]
  rw [List.mem_toArray, List.mem_mergeSort, List.mem_filterMap]
  simp only [id_eq, exists_eq_right, hmem, MapCandidate.entry?_eq_ok_iff]
  obtain ⟨code, size, offset⟩ := e
  constructor
  · rintro ⟨c, hc, ⟨-, ⟨⟩⟩ | ⟨hcount, _, _, hoffset, hsize, ⟨⟩⟩⟩
    exact ⟨c, hc, hcount, hoffset, hsize, rfl⟩
  · rintro ⟨c, hc, hcount, hoffset, hsize, rfl⟩
    exact ⟨c, hc, .inr ⟨hcount, _, _, hoffset, hsize, rfl⟩⟩

/-- A map list is short. -/
theorem size_entries_mapListOf_le {list : MapList} (h : mapListOf g l = .ok list) :
    list.entries.size ≤ 21 := by
  simp only [mapListOf, Except.bind_eq_ok_iff, Except.mapM_eq_ok_iff, Except.pure_eq_ok_iff] at h
  obtain ⟨entries, hentries, rfl⟩ := h
  have hlength : (mapCandidates g l).length ≤ 21 := by
    simp only [mapCandidates]
    split <;> simp
  simp only [List.size_toArray, List.length_mergeSort]
  exact Nat.le_trans (List.length_filterMap_le ..) (hentries.length_eq ▸ hlength)

/-! ## The order of the entries -/

namespace MapEntry

theorem le_iff {a b : MapEntry} : a.le b = true ↔ a.offset.toNat < b.offset.toNat ∨
    a.offset.toNat = b.offset.toNat ∧ (a.code.toNat < b.code.toNat ∨
      a.code.toNat = b.code.toNat ∧ a.size.toNat ≤ b.size.toNat) := by
  unfold le
  simp only [← UInt32.toNat_inj, ← UInt16.toNat_inj]
  split
  · split
    · simp only [decide_eq_true_eq, UInt32.le_iff_toNat_le]
      omega
    · simp only [decide_eq_true_eq, UInt16.le_iff_toNat_le]
      omega
  · simp only [decide_eq_true_eq, UInt32.le_iff_toNat_le]
    omega

theorem le_total (a b : MapEntry) : a.le b = true ∨ b.le a = true := by
  simp only [le_iff]
  omega

theorem le_trans {a b c : MapEntry} (h : a.le b = true) (h' : b.le c = true) : a.le c = true := by
  simp only [le_iff] at *
  omega

theorem le_antisymm {a b : MapEntry} (h : a.le b = true) (h' : b.le a = true) : a = b := by
  obtain ⟨code, size, offset⟩ := a
  obtain ⟨code', size', offset'⟩ := b
  simp only [le_iff, MapEntry.mk.injEq, ← UInt32.toNat_inj, ← UInt16.toNat_inj] at *
  omega

/-- Sorted entries are the same however they are sorted. -/
theorem mergeSort_le (entries : List MapEntry) :
    entries.mergeSort le = entries.insertionSort fun a b => a.le b = true := by
  have : Std.Total fun a b : MapEntry => a.le b = true := ⟨le_total⟩
  have : IsTrans MapEntry fun a b => a.le b = true := ⟨fun _ _ _ => le_trans⟩
  have : Std.Antisymm fun a b : MapEntry => a.le b = true := ⟨fun _ _ => le_antisymm⟩
  rw [← List.mergeSort_eq_insertionSort]
  simp only [Bool.decide_eq_true]

end MapEntry

theorem MapItemType.code_inj {kind kind' : MapItemType} : kind.code = kind'.code ↔ kind = kind' := by
  constructor
  · intro h
    have := congrArg ofCode? h
    rw [ofCode?_code, ofCode?_code] at this
    exact Option.some.inj this
  · exact congrArg code

/-- The entries of a map list are sorted, and no two of them name the same kind of section. -/
theorem pairwise_entries_mapListOf {list : MapList} (h : mapListOf g l = .ok list) :
    list.entries.toList.Pairwise fun a b => a.le b = true ∧ a.code ≠ b.code := by
  simp only [mapListOf, Except.bind_eq_ok_iff, Except.mapM_eq_ok_iff, Except.pure_eq_ok_iff] at h
  obtain ⟨found, hfound, rfl⟩ := h
  have hsub : ((found.filterMap id).map (·.code)).Sublist
      ((mapCandidates g l).map (·.kind.code)) := by
    generalize mapCandidates g l = cs at hfound
    induction hfound with
    | nil => exact .slnil
    | cons hc _ ih =>
      rcases MapCandidate.entry?_eq_ok_iff.mp hc with ⟨-, rfl⟩ | ⟨-, _, _, -, -, rfl⟩
      · exact ih.cons _
      · exact ih.cons_cons _
  have hkinds : ((mapCandidates g l).map (·.kind.code)).Nodup := by
    unfold mapCandidates MapCandidate.ofSection
    cases g.hiddenapi <;> simp only [List.map_append, List.map_cons, List.map_nil] <;> decide
  have hcodes : ((found.filterMap id).mergeSort MapEntry.le).Pairwise fun a b => a.code ≠ b.code := by
    rw [← List.pairwise_map]
    exact ((List.mergeSort_perm _ _).map _).nodup_iff.mpr (hsub.nodup hkinds)
  have hsorted : ((found.filterMap id).mergeSort MapEntry.le).Pairwise fun a b => a.le b = true :=
    @List.pairwise_mergeSort _ MapEntry.le (fun _ _ _ => MapEntry.le_trans)
      (fun a b => by simpa using MapEntry.le_total a b) _
  exact hsorted.and hcodes

end DexGraph
