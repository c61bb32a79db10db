import DexGraph.Proofs.Bytes.ShortestForm
import DexGraph.Proofs.Codec.CodeRecovery

/-!
# Bodies in canonical form

`CodeItem.canonical` reads a body whose numbers are in shortest form, whose padding is zero, and in
which every try range names a handler where the list of handlers has one. A body that is read where
this accepts the bytes is written as these bytes (`CodeItem.decode_keeps`): the handlers that the try
ranges name and those that are met by the walk through the list are then the same ones.
-/

namespace DexGraph

open Decoder

/-! ## What is accepted -/

namespace CatchHandler

/-- A handler. -/
def canonical : Decoder Unit := do
  let size := (← shortestSignedLeb).toInt
  times (2 * size.natAbs) (discard shortestLeb)
  if size ≤ 0 then discard shortestLeb

/-- The handlers that follow each other; the result is where each of them starts. -/
def canonicalEach : (count : Nat) → Decoder (List Nat)
  | 0 => return []
  | count + 1 => do
    let start ← position
    canonical
    return start :: (← canonicalEach count)

end CatchHandler

/-- Try ranges and the list of handlers behind them. -/
def Catches.canonical (tryCount : Nat) : Decoder Unit := do
  let stored ← gather tryCount StoredTry.decode
  let listStart ← position
  let count ← shortestLeb
  let starts ← CatchHandler.canonicalEach count.toNat
  require (∀ t ∈ stored, listStart + t.handlerOffset.toNat ∈ starts)

/-- A body. -/
def CodeItem.canonical : Decoder Unit := do
  let header ← CodeHeader.decode
  discard (halfWords header.unitCount.toNat)
  if header.tryCount != 0 then
    if header.unitCount % 2 == 1 then
      let padding ← halfWord
      require (padding = 0)
    Catches.canonical header.tryCount.toNat

variable {g : Graph} {data : Bytes} {p q r : Nat}

/-! ## Handlers -/

namespace CatchHandler

theorem spells_clauses {clauses : List CatchClause}
    (h : ReadsEach (decodeClause g) data p clauses q)
    (hwalk : (times (2 * clauses.length) (discard shortestLeb)).Reads data p () r) :
    r = q ∧ data.Spells p q (.ok (clauses.flatMap clauseBytes)) := by
  induction clauses generalizing p with
  | nil =>
    obtain rfl : q = p := h
    exact ⟨(reads_pure_iff.mp hwalk).2, Bytes.spells_nil⟩
  | cons clause rest ih =>
    obtain ⟨m, hclause, hrest⟩ := h
    simp only [decodeClause, reads_bind_iff, reads_ofExcept_iff, reads_pure_iff] at hclause
    obtain ⟨index, p₁, hindex, address, p₂, haddress, type, _, ⟨htype, rfl⟩, rfl, rfl⟩ := hclause
    obtain ⟨rfl, -⟩ := Graph.resolve_eq_ok_iff.mp htype
    obtain ⟨_, _, hfirst, hwalk⟩ := reads_bind_iff.mp hwalk
    obtain ⟨_, _, hsecond, hwalk⟩ := reads_bind_iff.mp hwalk
    obtain ⟨_, hfirst⟩ := reads_discard_iff.mp hfirst
    obtain ⟨_, hsecond⟩ := reads_discard_iff.mp hsecond
    obtain ⟨-, rfl, hspells₁⟩ := shortestLeb_eq hindex hfirst
    obtain ⟨-, rfl, hspells₂⟩ := shortestLeb_eq haddress hsecond
    obtain ⟨rfl, hspells⟩ := ih hrest hwalk
    exact ⟨rfl, (hspells₁.append hspells₂).append hspells⟩

/-- A handler that is read where its bytes are in shortest form is written as these bytes. -/
theorem decode_keeps (o : UInt16) : (decode g o).Keeps canonical fun h => .ok h.encode.toList := by
  intro data p h q b r hread hwalk
  obtain ⟨-, hproper, -⟩ := exists_of_decode hread
  obtain ⟨v, p₁, hsize, hread⟩ := reads_bind_iff.mp hread
  obtain ⟨clauses, p₂, hgather, hread⟩ := reads_bind_iff.mp hread
  obtain ⟨hcount, heach⟩ := reads_gather_iff.mp hgather
  obtain ⟨v', _, hsize', hwalk⟩ := reads_bind_iff.mp hwalk
  obtain ⟨rfl, rfl, hhead⟩ := shortestSignedLeb_eq hsize hsize'
  obtain ⟨_, _, htimes, hwalk⟩ := reads_bind_iff.mp hwalk
  rw [← hcount, ← Array.length_toList] at htimes
  obtain ⟨rfl, hclauses⟩ := spells_clauses heach htimes
  have hstated : h.statedSize = v' := by
    have hv := hproper.toInt_statedSize
    rw [← Int32.toInt_inj, hv]
    split at hread
    · obtain ⟨address, _, -, hpure⟩ := reads_bind_iff.mp hread
      obtain ⟨rfl, rfl⟩ := reads_pure_iff.mp hpure
      simp [typed]
      omega
    · obtain ⟨rfl, rfl⟩ := reads_pure_iff.mp hread
      simp [typed]
      omega
  change r = q ∧ data.Spells p q (.ok h.encode.toList)
  rw [toList_encode, hstated]
  split at hread
  · rename_i hall
    rw [if_pos hall] at hwalk
    obtain ⟨address, _, haddress, hpure⟩ := reads_bind_iff.mp hread
    obtain ⟨rfl, rfl⟩ := reads_pure_iff.mp hpure
    obtain ⟨_, haddress'⟩ := reads_discard_iff.mp hwalk
    obtain ⟨-, rfl, hlast⟩ := shortestLeb_eq haddress haddress'
    refine ⟨rfl, ?_⟩
    have hbytes : clauseBytes ⟨none, address⟩ = (Leb128.encodeUnsigned address).toList := by
      simp [clauseBytes]
    rw [Array.toList_push, List.flatMap_append, List.flatMap_singleton, hbytes, ← List.append_assoc]
    exact (hhead.append hclauses).append hlast
  · rename_i hall
    rw [if_neg hall] at hwalk
    obtain ⟨rfl, rfl⟩ := reads_pure_iff.mp hread
    obtain ⟨-, rfl⟩ := reads_pure_iff.mp hwalk
    exact ⟨rfl, hhead.append hclauses⟩

/-- Handlers that are walked through start where the entries of the list do, and each of them is
written as it is stored. -/
theorem WalkedFrom.exists_of_canonicalEach {listStart : Nat} {handlers : List CatchHandler}
    (h : WalkedFrom g data listStart p handlers q) {starts : List Nat}
    (hwalk : (canonicalEach handlers.length).Reads data p starts r) :
    r = q ∧ starts = handlers.map (fun x => listStart + x.listOffset.toNat) ∧
      ∀ x ∈ handlers, data.HoldsAt (listStart + x.listOffset.toNat) x.encode.toList := by
  induction handlers generalizing p starts with
  | nil =>
    obtain rfl : q = p := h
    obtain ⟨rfl, rfl⟩ := reads_pure_iff.mp hwalk
    exact ⟨rfl, rfl, by simp⟩
  | cons x rest ih =>
    obtain ⟨rfl, m, hread, hrest⟩ := h
    obtain ⟨_, _, hposition, hwalk⟩ := reads_bind_iff.mp hwalk
    obtain ⟨rfl, rfl⟩ := reads_position_iff.mp hposition
    obtain ⟨_, _, hfirst, hwalk⟩ := reads_bind_iff.mp hwalk
    obtain ⟨_, _, hothers, hpure⟩ := reads_bind_iff.mp hwalk
    obtain ⟨rfl, rfl⟩ := reads_pure_iff.mp hpure
    obtain ⟨rfl, _, ⟨⟩, hat, -⟩ := decode_keeps _ _ _ _ _ _ _ hread hfirst
    obtain ⟨rfl, rfl, hall⟩ := ih hrest hothers
    exact ⟨rfl, rfl, List.forall_mem_cons.mpr ⟨hat, hall⟩⟩

theorem Contiguous.exists_mem {handlers : List CatchHandler} {start i : Nat}
    (h : Contiguous start handlers) (hle : start ≤ i)
    (hlt : i < start + (handlers.map fun h => h.encode.size).sum) :
    ∃ x ∈ handlers, x.listOffset.toNat ≤ i ∧ i < x.listOffset.toNat + x.encode.size := by
  induction handlers generalizing start with
  | nil => simp at hlt; omega
  | cons x rest ih =>
    obtain ⟨rfl, hrest⟩ := h
    by_cases hin : i < x.listOffset.toNat + x.encode.size
    · exact ⟨x, List.mem_cons_self, hle, hin⟩
    · rw [List.map_cons, List.sum_cons, ← Nat.add_assoc] at hlt
      obtain ⟨y, hy, hi⟩ := ih hrest (by omega) hlt
      exact ⟨y, List.mem_cons_of_mem _ hy, hi⟩

theorem WalkedFrom.stop_of_contiguous {listStart start : Nat} {handlers : List CatchHandler}
    (h : WalkedFrom g data listStart (listStart + start) handlers q)
    (hcontiguous : Contiguous start handlers)
    (hat : ∀ x ∈ handlers, data.HoldsAt (listStart + x.listOffset.toNat) x.encode.toList) :
    q = listStart + start + (handlers.map fun h => h.encode.size).sum := by
  induction handlers generalizing start with
  | nil => exact h
  | cons x rest ih =>
    rw [List.forall_mem_cons] at hat
    obtain ⟨-, m, hread, hrest⟩ := h
    obtain ⟨rfl, hcontiguous⟩ := hcontiguous
    obtain ⟨-, hproper, -⟩ := exists_of_decode hread
    have hm := (hread.unique (decode_recovers hproper _ _ hat.1)).2
    rw [Array.length_toList, Nat.add_assoc] at hm
    rw [ih (hm ▸ hrest) hcontiguous hat.2, List.map_cons, List.sum_cons]
    omega

end CatchHandler

/-! ## Lists of handlers -/

namespace Catches

open CatchHandler

variable {c : Catches}

/-- From `listStart` to `q` stands the list of handlers as it is written, the handlers following each
other in the given order. -/
structure ListStands (data : Bytes) (listStart q : Nat) (handlers : Array CatchHandler)
    (walked : List CatchHandler) : Prop where
  perm : walked.Perm handlers.toList
  count_lt : handlers.size < 2 ^ 32
  count : data.HoldsAt listStart (Leb128.encodeUnsigned handlers.size.toUInt32).toList
  contiguous : Contiguous (Leb128.encodeUnsigned handlers.size.toUInt32).size walked
  holds : ∀ x ∈ walked, data.HoldsAt (listStart + x.listOffset.toNat) x.encode.toList
  stop : q = listStart + (Leb128.encodeUnsigned handlers.size.toUInt32).size +
    (walked.map fun x => x.encode.size).sum

theorem spells_storedTry {stored : StoredTry} (h : StoredTry.decode.Reads data p stored q) :
    data.Spells p q (.ok stored.encode.toList) := by
  simp only [StoredTry.decode, reads_halfWord_bind_iff, reads_word_bind_iff, reads_pure_iff] at h
  obtain ⟨start, hstart, count, hcount, offset, hoffset, rfl, rfl⟩ := h
  refine ⟨_, rfl, ?_, by simp [StoredTry.encode]⟩
  simp only [StoredTry.encode, Array.toList_append, Bytes.holdsAt_append, List.length_append,
    Array.length_toList, Bytes.size_ofWord, Bytes.size_ofHalfWord]
  exact ⟨⟨hstart, hcount⟩, hoffset⟩

/-- Try ranges and handlers that are read where all numbers are in shortest form, and where every try
range names an entry of the list, are written as they are stored. -/
theorem exists_of_canonical {tryCount : Nat} (h : (decode g tryCount).Reads data p c q)
    {u : Unit} (hwalk : (canonical tryCount).Reads data p u r) :
    r = q ∧ ∃ (stored : List StoredTry) (listStart : Nat) (walked : List CatchHandler),
      stored.length = tryCount ∧
      data.Spells p listStart (.ok (stored.flatMap fun t => t.encode.toList)) ∧
      List.Forall₂ (Dispatches c.handlers) stored c.tries.toList ∧
      ListStands data listStart q c.handlers walked := by
  obtain ⟨stored, listStart, hgather, hlist⟩ := reads_bind_iff.mp h
  obtain ⟨_, _, hposition, hcatches⟩ := reads_bind_iff.mp hlist
  obtain ⟨rfl, rfl⟩ := reads_position_iff.mp hposition
  obtain ⟨c₀, p₀, hfold, hhandlers⟩ := reads_bind_iff.mp hcatches
  obtain ⟨count, start, hcount, hlisted⟩ := reads_bind_iff.mp hhandlers
  rw [← Array.foldlM_toList] at hfold
  obtain ⟨rfl, hc₀, -, ⟨new, hnew, hdispatch⟩, hfrom₀⟩ := exists_of_addTries readFrom_empty hfold
  obtain ⟨stored', _, hgather', hlist'⟩ := reads_bind_iff.mp hwalk
  obtain ⟨rfl, rfl⟩ := hgather'.unique hgather
  obtain ⟨_, _, hposition', hcatches'⟩ := reads_bind_iff.mp hlist'
  obtain ⟨rfl, rfl⟩ := reads_position_iff.mp hposition'
  obtain ⟨count', start', hcount', hrest'⟩ := reads_bind_iff.mp hcatches'
  obtain ⟨rfl, rfl, _, ⟨⟩, hcountAt, rfl⟩ := shortestLeb_eq hcount hcount'
  obtain ⟨starts, _, hstarts, hrequire⟩ := reads_bind_iff.mp hrest'
  obtain ⟨hnamed, rfl⟩ := reads_require_iff.mp hrequire
  obtain ⟨hlength, htries⟩ := reads_gather_iff.mp hgather
  obtain ⟨hc, hprefix, hkept, walked, hsteps, hwalked, hsub, hfrom⟩ :=
    exists_of_addListed hc₀ (Nat.le_add_right ..) hlisted
  rw [← hsteps] at hstarts
  obtain ⟨rfl, rfl, hat⟩ := hwalked.exists_of_canonicalEach hstarts
  -- A handler that a try range names is the entry that starts where it does.
  have hmet : ∀ x ∈ c.handlers, x ∈ walked := by
    intro x hx
    rcases hfrom x hx with hx₀ | hx
    · rcases hfrom₀ x hx₀ with hnone | ⟨t, ht, ho⟩
      · simp [empty] at hnone
      · obtain ⟨y, hy, hplace⟩ := List.mem_map.mp (hnamed t (Array.mem_toList_iff.mp ht))
        have heq : y.listOffset = x.listOffset :=
          UInt16.toNat_inj.mp (by rw [ho]; omega)
        obtain rfl := (hc.shown y (hsub y hy)).unique (hc.shown x hx) heq
        exact hy
    · exact hx
  have hnodup : walked.Nodup := (distinct_of_apart hwalked.apart).nodup
  have hperm : walked.Perm c.handlers.toList :=
    (List.perm_ext_iff_of_nodup hnodup hc.distinct.nodup).mpr fun x =>
      ⟨fun hx => Array.mem_toList_iff.mpr (hsub x hx), fun hx => hmet x (Array.mem_toList_iff.mp hx)⟩
  have hsize : c.handlers.size = count'.toNat := by
    rw [← hsteps, hperm.length_eq, Array.length_toList]
  have hword : c.handlers.size.toUInt32 = count' := by
    rw [hsize]
    exact UInt32.ofNat_toNat
  rw [Array.length_toList] at hwalked
  have hcontiguous := hwalked.contiguous hat
  refine ⟨rfl, stored'.toList, _, walked, by simpa using hlength, ?_, ?_, hperm, ?_, ?_, ?_, hat, ?_⟩
  · exact htries.spells fun _ _ _ => spells_storedTry
  · rw [hkept, hnew, empty, List.nil_append]
    exact hdispatch.imp fun _ _ hd => hd.mono hprefix
  · rw [hsize]
    exact count'.toNat_lt
  · rwa [hword]
  · rwa [hword]
  · rw [hword]
    exact hwalked.stop_of_contiguous hcontiguous hat

/-- Try ranges are written as they are stored, if their handlers lie where they say. -/
theorem pieces_tryBytes {code : CodeItem} {stored : List StoredTry} {tries : List TryRange}
    (h : List.Forall₂ (Dispatches code.handlers) stored tries) :
    Bytes.pieces code.tryBytes tries = .ok (stored.flatMap fun t => t.encode.toList) := by
  induction h with
  | nil => rfl
  | @cons t s _ _ hts _ ih =>
    obtain ⟨hstart, hcount, x, hx, ho⟩ := hts
    have hpart : code.tryBytes s = .ok t.encode := by
      obtain ⟨start, count, handlerOffset⟩ := t
      obtain ⟨rfl, rfl, rfl⟩ : s.start = start ∧ s.count = count ∧ x.listOffset = handlerOffset :=
        ⟨hstart, hcount, ho⟩
      rw [CodeItem.tryBytes, show code.handlerOf? s = some x from hx]
    rw [Bytes.pieces, hpart, ih]
    rfl

end Catches

/-! ## Bodies -/

namespace CodeItem

variable {code : CodeItem} {off : UInt32} {item : Stream}

theorem reads_header_iff {h : CodeHeader} :
    CodeHeader.decode.Reads data p h q ↔ data.HoldsAt p h.encode.toList ∧ q = p + 16 := by
  have hsize : h.encode.toList.length = 16 := by simp
  refine ⟨fun hread => ?_, fun ⟨hat, hq⟩ => hq ▸ hsize ▸ recovers_header h data p hat⟩
  simp only [CodeHeader.decode, reads_halfWord_bind_iff, reads_word_bind_iff, reads_pure_iff] at hread
  obtain ⟨_, h₁, _, h₂, _, h₃, _, h₄, _, h₅, _, h₆, rfl, rfl⟩ := hread
  simp only [CodeHeader.encode, Array.toList_append, Bytes.holdsAt_append, List.length_append,
    Array.length_toList, Bytes.size_ofWord, Bytes.size_ofHalfWord]
  exact ⟨⟨⟨⟨⟨⟨h₁, h₂⟩, h₃⟩, h₄⟩, h₅⟩, h₆⟩, trivial⟩

/-- Handlers that follow each other leave no gap behind what comes before them: every byte up to the
end of the last one is stored, and is the one that the data has. -/
theorem exists_byteAt?_storeHandlers {before count : Bytes} {handlers walked : List CatchHandler}
    (hbefore : data.HoldsAt p (before ++ count).toList) (hperm : walked.Perm handlers)
    (hcontiguous : CatchHandler.Contiguous count.size walked)
    (hat : ∀ x ∈ walked, data.HoldsAt (p + before.size + x.listOffset.toNat) x.encode.toList)
    {i : Nat} (hlt : i < before.size + count.size + (walked.map fun x => x.encode.size).sum) :
    ∃ b, data[p + i]? = some b ∧
      (storeHandlers before.size (.ofBytes (before ++ count)) handlers).byteAt? i = some b := by
  by_cases hin : i < (before ++ count).size
  · have hbyte : (before ++ count)[i]? = some (before ++ count)[i] := Array.getElem?_eq_getElem hin
    refine ⟨_, hbefore i _ (by rw [Array.getElem?_toList, hbyte]), ?_⟩
    rw [byteAt?_storeHandlers, Stream.byteAt?_ofBytes, hbyte]
    intro x hx
    have := hcontiguous.le x (hperm.mem_iff.mpr hx)
    rw [Array.size_append] at hin
    omega
  · rw [Array.size_append] at hin
    obtain ⟨x, hx, hle, hlt⟩ := hcontiguous.exists_mem (i := i - before.size) (by omega) (by omega)
    obtain ⟨k, rfl⟩ : ∃ k, i = before.size + x.listOffset.toNat + k :=
      Nat.exists_eq_add_of_le (by omega)
    have hk : k < x.encode.size := by omega
    have hbyte : x.encode[k]? = some x.encode[k] := Array.getElem?_eq_getElem hk
    refine ⟨_, ?_, byteAt?_storeHandlers_mem
      ((hperm.pairwise_iff CatchHandler.Apart.symm).mp hcontiguous.apart) _
      (hperm.mem_iff.mp hx) hbyte⟩
    rw [← Nat.add_assoc, ← Nat.add_assoc]
    exact hat x hx k _ (by rw [Array.getElem?_toList, hbyte])

/-- What is written of a body stands in the data, if what comes before its handlers does and its
handlers follow each other there. -/
theorem spells_encode_of_listStands {tries : List UInt8} (walked : List CatchHandler)
    (hne : code.tries ≠ #[]) (htriesSize : code.tries.size < 2 ^ 16)
    (hunits : code.instructions.size < 2 ^ 32)
    (htries : Bytes.pieces code.tryBytes code.tries.toList = .ok tries)
    (hbefore : data.HoldsAt p (code.beforeHandlers off tries).toList)
    (hlist : Catches.ListStands data (p + (code.beforeHandlers off tries).size) q code.handlers
      walked) :
    data.Spells p q ((fun item : Stream => item.toBytes.toList) <$> code.encode off) := by
  have hencode := (@encode_eq_ok_iff code off _).mpr ⟨htriesSize, hunits, .inr ⟨hne, hlist.count_lt,
    fun x hx => hlist.contiguous.le x (hlist.perm.mem_iff.mpr (Array.mem_toList_iff.mpr hx)), tries,
    htries, rfl⟩⟩
  have hlength := @length_of_contiguous p code off _ hencode hne _ htries _ hlist.perm
    hlist.contiguous
  have hcount : data.HoldsAt p (code.beforeHandlers off tries ++ code.countBytes).toList := by
    rw [Array.toList_append, Bytes.holdsAt_append, Array.length_toList]
    exact ⟨hbefore, hlist.count⟩
  rw [← @listStart_eq p code off] at hlength
  rw [hencode]
  refine ⟨_, rfl, fun i b hi => ?_, ?_⟩
  · rw [Array.getElem?_toList, Stream.getElem?_toBytes] at hi
    split at hi
    · obtain ⟨b', hdata, hstored⟩ := exists_byteAt?_storeHandlers (i := i) hcount hlist.perm
        hlist.contiguous hlist.holds (by omega)
      rw [Stream.byteAt?_seek, hstored] at hi
      exact hdata.trans hi
    · cases hi
  · rw [Array.length_toList, Stream.size_toBytes, hlength]
    exact hlist.stop

/-- The padding in front of the try ranges, which is passed over, is zero where this is asked for. -/
theorem holdsAt_padding {unitCount : UInt32} (hcount : code.instructions.size = unitCount.toNat)
    {α β : Type} {d : Decoder α} {strict : Decoder β} {a : α} {b : β}
    (h : (do
      if unitCount % 2 == 1 then advance 2
      d : Decoder α).Reads data p a q)
    (hwalk : (do
      if unitCount % 2 == 1 then
        let padding ← halfWord
        require (padding = 0)
      strict : Decoder β).Reads data p b r) :
    data.HoldsAt p code.padding ∧ d.Reads data (p + code.padding.length) a q ∧
      strict.Reads data (p + code.padding.length) b r := by
  have hodd : (unitCount % 2 == 1) = true ↔ code.instructions.size % 2 = 1 := by
    rw [beq_iff_eq, ← UInt32.toNat_inj, UInt32.toNat_mod, hcount]
    rfl
  unfold padding
  by_cases hunit : code.instructions.size % 2 = 1
  · rw [if_pos (hodd.mpr hunit)] at h hwalk
    rw [if_pos hunit, Array.length_toList, Bytes.size_ofHalfWord]
    obtain ⟨_, _, hadvance, hd⟩ := reads_bind_iff.mp h
    obtain ⟨-, rfl⟩ := reads_advance_iff.mp hadvance
    obtain ⟨_, hat, hwalk⟩ := reads_halfWord_bind_iff.mp hwalk
    obtain ⟨rfl, hstrict⟩ := reads_require_bind_iff.mp hwalk
    exact ⟨hat, hd, hstrict⟩
  · rw [if_neg fun heq => hunit (hodd.mp heq)] at h hwalk
    rw [if_neg hunit]
    exact ⟨Bytes.holdsAt_nil _ _, h, hwalk⟩

/-- A body that is read where it is in canonical form is written as it is stored, if its debug info
has the offset that is stored. -/
theorem spells_encode_of_canonical {header : CodeHeader} {debugInfo : Option (Ref .debugInfo)}
    (hheader : CodeHeader.decode.Reads data p header (p + 16))
    (h : (decodeAfter g header debugInfo).Reads data (p + 16) code q)
    {u : Unit} (hwalk : canonical.Reads data p u r) :
    r = q ∧ data.Spells p q
      ((fun item : Stream => item.toBytes.toList) <$> code.encode header.debugInfoOffset) := by
  obtain ⟨_, _, hheader', hwalk⟩ := reads_bind_iff.mp hwalk
  obtain ⟨rfl, rfl⟩ := hheader.unique hheader'
  obtain ⟨units, m, hunits, h⟩ := reads_bind_iff.mp h
  obtain ⟨_, _, hunits', hwalk⟩ := reads_bind_iff.mp hwalk
  obtain ⟨_, hunits'⟩ := reads_discard_iff.mp hunits'
  obtain ⟨rfl, rfl⟩ := hunits.unique hunits'
  obtain ⟨hcount, heach⟩ := reads_gather_iff.mp hunits
  obtain ⟨_, ⟨⟩, hunitsAt, rfl⟩ := heach.spells
    (f := fun u => (Bytes.ofHalfWord u).toList) fun _ _ _ hunit => by
      obtain ⟨hat, rfl⟩ := reads_halfWord_iff.mp hunit
      exact ⟨_, rfl, hat, by simp⟩
  have hheaderAt := (reads_header_iff.mp hheader).1
  have hunitCount : units.size < 2 ^ 32 := hcount ▸ header.unitCount.toNat_lt
  have hunitWord : units.size.toUInt32 = header.unitCount := by
    rw [hcount]
    exact UInt32.ofNat_toNat
  -- The header that is written is the one that has been read.
  have hwritten (c : Catches) (hsize : c.tries.size = header.tryCount.toNat) :
      headerOf ⟨header.registers, header.ins, header.outs, debugInfo, units, c.tries, c.handlers⟩
        header.debugInfoOffset = header := by
    have htryWord : c.tries.size.toUInt16 = header.tryCount := by
      rw [hsize]
      exact UInt16.ofNat_toNat
    simp only [headerOf, hunitWord, htryWord]
  by_cases hzero : header.tryCount = 0
  · rw [if_pos (by simpa using hzero)] at h
    rw [if_neg (by simpa using hzero)] at hwalk
    obtain ⟨rfl, rfl⟩ := reads_pure_iff.mp h
    obtain ⟨-, rfl⟩ := reads_pure_iff.mp hwalk
    refine ⟨rfl, ?_⟩
    rw [encode_eq_ok_iff.mpr ⟨by simp [Catches.empty], hunitCount, .inl ⟨rfl, rfl⟩⟩,
      hwritten .empty (by simp [Catches.empty, hzero])]
    refine ⟨_, rfl, ?_, ?_⟩
    · change data.HoldsAt p (Stream.ofBytes _).toBytes.toList
      rw [Stream.toBytes_ofBytes, Bytes.holdsAt_append, Array.length_toList, size_encode_header]
      exact ⟨hheaderAt, hunitsAt⟩
    · simp [unitBytes]
      omega
  · rw [if_neg (by simpa using hzero)] at h
    rw [if_pos (by simpa using hzero)] at hwalk
    obtain ⟨hpadding, h, hstrict⟩ := @holdsAt_padding _ _ _ _
      ⟨header.registers, header.ins, header.outs, debugInfo, units, #[], #[]⟩ _ hcount _ _ _
      (Catches.canonical header.tryCount.toNat) _ _ h hwalk
    obtain ⟨c, _, hc, hpure⟩ := reads_bind_iff.mp h
    obtain ⟨rfl, rfl⟩ := reads_pure_iff.mp hpure
    obtain ⟨rfl, stored, listStart, walked, hlength, ⟨_, ⟨⟩, htriesAt, rfl⟩, hdispatch, hlist⟩ :=
      Catches.exists_of_canonical hc hstrict
    have hsize : c.tries.size = header.tryCount.toNat := by
      rw [← hlength, hdispatch.length_eq, Array.length_toList]
    have hbefore := hwritten c hsize
    refine ⟨rfl, spells_encode_of_listStands walked ?_ ?_ hunitCount
      (Catches.pieces_tryBytes hdispatch) ?_ ?_⟩
    · intro hnil
      rw [show c.tries = #[] from hnil] at hsize
      exact hzero (UInt16.toNat_inj.mp hsize.symm)
    · exact hsize ▸ header.tryCount.toNat_lt
    · simp only [beforeHandlers, hbefore, Bytes.holdsAt_append, List.length_append,
        Array.length_toList, size_encode_header, ← Nat.add_assoc]
      exact ⟨⟨⟨hheaderAt, hunitsAt⟩, hpadding⟩, htriesAt⟩
    · simp only [beforeHandlers, List.size_toArray, List.length_append, Array.length_toList,
        size_encode_header, ← Nat.add_assoc]
      exact hlist

end CodeItem

end DexGraph
