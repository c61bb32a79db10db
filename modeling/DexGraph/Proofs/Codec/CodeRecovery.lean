import DexGraph.Proofs.Codec.HandlerLists

/-!
# Bodies are read back

A body is written with every handler at the offset that it has in the list, and in shortest form.
It is read by the offsets of its try ranges and by a walk through the list as well. The walk meets
the handlers of the body, and no others, exactly if in some order they follow each other without
gaps (`CodeItem.decode_encode_iff`). A list that was stored with more bytes than necessary is read
into a body for which this fails, and such a body does not survive being written.
-/

namespace DexGraph

namespace CodeItem

open Decoder

/-- Reads a body whose debug info is known. -/
def decode (g : Graph) (debugInfo : Option (Ref .debugInfo)) : Decoder CodeItem := do
  let header ← CodeHeader.decode
  decodeAfter g header debugInfo

/-- In some order the handlers follow each other, in shortest form, behind their number. -/
def HandlersContiguous (code : CodeItem) : Prop :=
  ∃ handlers : List CatchHandler, handlers.Perm code.handlers.toList ∧
    CatchHandler.Contiguous code.countBytes.size handlers

/-- The bodies are the same but for the order of their handlers: they have the same instructions,
the same try ranges, each with the same handler, and the same handlers, each as often. -/
structure Matches (code code' : CodeItem) : Prop where
  registers : code'.registers = code.registers
  ins : code'.ins = code.ins
  outs : code'.outs = code.outs
  debugInfo : code'.debugInfo = code.debugInfo
  instructions : code'.instructions = code.instructions
  tries : List.Forall₂ (fun t t' => t'.start = t.start ∧ t'.count = t.count ∧
    code'.handlerOf? t' = code.handlerOf? t) code.tries.toList code'.tries.toList
  handlers : code'.handlers.toList.Perm code.handlers.toList

variable {g : Graph} {data : Bytes} {p q : Nat} {code code' : CodeItem} {off : UInt32}
  {item : Stream} {debugInfo : Option (Ref .debugInfo)}

/-- A body is the same as itself. -/
theorem Matches.refl (code : CodeItem) : code.Matches code :=
  ⟨rfl, rfl, rfl, rfl, rfl, List.forall₂_same.mpr fun _ _ => ⟨rfl, rfl, rfl⟩, .refl _⟩

/-! ## Where the handlers are stored -/

/-- Handlers that do not overlap are all there once they are stored. -/
theorem byteAt?_storeHandlers_mem {listStart : Nat} {handlers : List CatchHandler}
    (hapart : handlers.Pairwise CatchHandler.Apart) (stream : Stream) {h : CatchHandler}
    (hmem : h ∈ handlers) {i : Nat} {b : UInt8} (hb : h.encode[i]? = some b) :
    (storeHandlers listStart stream handlers).byteAt? (listStart + h.listOffset.toNat + i) =
      some b := by
  induction handlers generalizing stream with
  | nil => cases hmem
  | cons x rest ih =>
    obtain ⟨hx, hrest⟩ := List.pairwise_cons.mp hapart
    change (storeHandlers listStart _ rest).byteAt? _ = _
    rcases List.mem_cons.mp hmem with rfl | hmem
    · have hi := (Array.getElem?_eq_some_iff.mp hb).1
      rw [byteAt?_storeHandlers, Stream.byteAt?_write, Stream.position_seek, if_pos (by omega),
        Nat.add_sub_cancel_left, hb, Option.some_or]
      intro y hy
      rcases hx y hy with hle | hle <;> omega
    · exact ih hrest _ hmem

theorem holdsAt_handlers (h : code.encode off = .ok item) (hne : code.tries ≠ #[])
    (hapart : code.handlers.toList.Pairwise CatchHandler.Apart) {tries : List UInt8}
    (htries : Bytes.pieces code.tryBytes code.tries.toList = .ok tries)
    (hat : data.HoldsAt p item.toBytes.toList) :
    ∀ x ∈ code.handlers.toList, data.HoldsAt
      (p + (code.beforeHandlers off tries).size + x.listOffset.toNat) x.encode.toList := by
  obtain ⟨-, -, ⟨hempty, -⟩ | ⟨-, -, -, tries', htries', rfl⟩⟩ := encode_eq_ok_iff.mp h
  · exact absurd hempty hne
  · cases htries.symm.trans htries'
    intro x hx i b hi
    rw [Array.getElem?_toList] at hi
    rw [Nat.add_assoc, Nat.add_assoc]
    apply hat
    have hstored := @byteAt?_storeHandlers_mem (code.beforeHandlers off tries).size _
      hapart (Stream.ofBytes (code.beforeHandlers off tries ++ code.countBytes)) _ hx _ _ hi
    have hlt := byteAt?_storeHandlers_lt (Stream.tight_ofBytes _).lt_length _ _ hstored
    rw [Array.getElem?_toList, Stream.getElem?_toBytes, Stream.byteAt?_seek, Stream.length_seek,
      if_pos (by rwa [Nat.add_assoc] at hlt), ← Nat.add_assoc, hstored]
    rfl

theorem handlersEnd_of_contiguous {listStart start : Nat} {handlers : List CatchHandler}
    (h : CatchHandler.Contiguous start handlers) :
    handlersEnd listStart (listStart + start) handlers =
      listStart + start + (handlers.map fun h => h.encode.size).sum := by
  induction handlers generalizing start with
  | nil => rfl
  | cons x rest ih =>
    obtain ⟨rfl, hrest⟩ := h
    have hmax : max (listStart + x.listOffset.toNat)
        (listStart + x.listOffset.toNat + x.encode.size) =
        listStart + (x.listOffset.toNat + x.encode.size) := by omega
    have hrec := ih hrest
    rw [handlersEnd, List.foldl_cons, hmax]
    rw [handlersEnd] at hrec
    rw [hrec, List.map_cons, List.sum_cons]
    omega

theorem handlersEnd_perm {listStart stop : Nat} {handlers handlers' : List CatchHandler}
    (h : handlers.Perm handlers') :
    handlersEnd listStart stop handlers = handlersEnd listStart stop handlers' := by
  have : RightCommutative fun stop (h : CatchHandler) =>
      max stop (listStart + h.listOffset.toNat + h.encode.size) :=
    ⟨fun _ _ _ => Nat.max_right_comm ..⟩
  exact h.foldl_eq stop

/-! ## Try ranges -/

theorem recovers_storedTry (t : StoredTry) : StoredTry.decode.Recovers t.encode.toList t := by
  rw [StoredTry.encode, Array.toList_append, Array.toList_append, List.append_assoc]
  refine recovers_word.bind (recovers_halfWord.bind ?_)
  exact recovers_halfWord.map (g := fun o => (⟨t.start, t.count, o⟩ : StoredTry))

/-- What is stored of the try ranges says which handlers they have. -/
theorem exists_storedTries {tries : List TryRange} {out : List UInt8}
    (h : Bytes.pieces code.tryBytes tries = .ok out) : ∃ stored : List StoredTry,
      List.Forall₂ (Catches.Dispatches code.handlers) stored tries ∧
        out = stored.flatMap fun t => t.encode.toList := by
  induction tries generalizing out with
  | nil =>
    cases h
    exact ⟨[], .nil, rfl⟩
  | cons t rest ih =>
    simp only [Bytes.pieces, Except.bind_eq_ok_iff, Except.pure_eq_ok_iff] at h
    obtain ⟨head, ht, tail, htail, rfl⟩ := h
    obtain ⟨stored, hall, rfl⟩ := ih htail
    unfold tryBytes at ht
    cases hx : code.handlerOf? t with
    | none =>
      rw [hx] at ht
      cases ht
    | some x =>
      rw [hx] at ht
      cases ht
      exact ⟨⟨t.start, t.count, x.listOffset⟩ :: stored, .cons ⟨rfl, rfl, x, hx, rfl⟩ hall, rfl⟩

/-! ## Reading what has been written -/

theorem reads_bind_iff_of_reads {α β : Type} {d : Decoder α} {f : α → Decoder β} {a : α} {b : β}
    {r : Nat} (h : d.Reads data p a r) : (d >>= f).Reads data p b q ↔ (f a).Reads data r b q := by
  refine ⟨fun hbind => ?_, h.bind⟩
  obtain ⟨a', r', ha, hf⟩ := reads_bind_iff.mp hbind
  obtain ⟨rfl, rfl⟩ := h.unique ha
  exact hf

/-- The try ranges that are stored, and the number of handlers, are always found. -/
theorem reads_catches_iff {stored : List StoredTry} {count : UInt32} {c : Catches}
    (hat : data.HoldsAt p ((stored.flatMap fun t => t.encode.toList) ++
      (Leb128.encodeUnsigned count).toList)) :
    (Catches.decode g stored.length).Reads data p c q ↔
      ∃ c₀, (stored.foldlM (Catches.addTry g
          (p + (stored.flatMap fun t => t.encode.toList).length)) .empty).Reads data
          (p + (stored.flatMap fun t => t.encode.toList).length) c₀
          (p + (stored.flatMap fun t => t.encode.toList).length) ∧
        (Catches.addListed g (p + (stored.flatMap fun t => t.encode.toList).length) count.toNat
          c₀).Reads data (p + (stored.flatMap fun t => t.encode.toList).length +
            (Leb128.encodeUnsigned count).size) c q := by
  obtain ⟨htries, hcount⟩ := Bytes.holdsAt_append.mp hat
  have hgather : (gather stored.length StoredTry.decode).Recovers
      (stored.flatMap fun t => t.encode.toList) stored.toArray :=
    (recoversEach_flatMap fun t _ => recovers_storedTry t).gather List.size_toArray
  have hcountRead := recovers_unsignedLeb data _ hcount
  rw [Array.length_toList] at hcountRead
  unfold Catches.decode
  rw [reads_bind_iff_of_reads (hgather data p htries),
    reads_bind_iff_of_reads (reads_position_iff.mpr ⟨rfl, rfl⟩), reads_bind_iff]
  constructor
  · rintro ⟨c₀, r, hfold, hrest⟩
    rw [← Array.foldlM_toList] at hfold
    obtain ⟨rfl, -⟩ := Catches.exists_of_addTries Catches.readFrom_empty hfold
    exact ⟨c₀, hfold, (reads_bind_iff_of_reads hcountRead).mp hrest⟩
  · rintro ⟨c₀, hfold, hrest⟩
    refine ⟨c₀, _, ?_, (reads_bind_iff_of_reads hcountRead).mpr hrest⟩
    rw [← Array.foldlM_toList]
    exact hfold

theorem recovers_header (h : CodeHeader) : CodeHeader.decode.Recovers h.encode.toList h := by
  simp only [CodeHeader.encode, Array.toList_append, List.append_assoc]
  refine recovers_halfWord.bind (recovers_halfWord.bind (recovers_halfWord.bind
    (recovers_halfWord.bind (recovers_word.bind ?_))))
  exact recovers_word.map (g := fun n =>
    (⟨h.registers, h.ins, h.outs, h.tryCount, h.debugInfoOffset, n⟩ : CodeHeader))

theorem recovers_units (code : CodeItem) :
    (halfWords code.instructions.size).Recovers code.unitBytes code.instructions :=
  (recoversEach_flatMap fun _ _ => recovers_halfWord).gather rfl

/-- Try ranges start at a whole word: if there is an odd number of units, padding is passed over. -/
theorem reads_padding_iff (hcount : code.instructions.size < 2 ^ 32)
    (hat : data.HoldsAt p code.padding) {α : Type} {d : Decoder α} {a : α} :
    (do
      if code.instructions.size.toUInt32 % 2 == 1 then advance 2
      d : Decoder α).Reads data p a q ↔ d.Reads data (p + code.padding.length) a q := by
  have hodd : (code.instructions.size.toUInt32 % 2 == 1) = true ↔
      code.instructions.size % 2 = 1 := by
    rw [beq_iff_eq, ← UInt32.toNat_inj, UInt32.toNat_mod, toNat_toUInt32 hcount]
    rfl
  unfold padding at hat ⊢
  by_cases h : code.instructions.size % 2 = 1
  · rw [if_pos h] at hat ⊢
    rw [if_pos (hodd.mpr h)]
    refine reads_bind_iff_of_reads (a := ()) (reads_advance_iff.mpr ⟨?_, by simp⟩)
    have hle := hat.add_length_le (List.ne_nil_of_length_pos (by simp))
    simpa using hle
  · rw [if_neg h, if_neg fun heq => h (hodd.mp heq)]
    rfl

/-- What is read where a body has been written has its header and its instructions, and the try
ranges and handlers that are read behind them. -/
theorem reads_decode_iff (h : code.encode off = .ok item)
    (hat : data.HoldsAt p item.toBytes.toList) :
    (decode g debugInfo).Reads data p code' q ↔ ∃ c : Catches, code' = { code with
        debugInfo := debugInfo, tries := c.tries, handlers := c.handlers } ∧
      (if code.tries = #[] then c = .empty ∧ q = p + item.length
        else (Catches.decode g code.tries.size).Reads data
          (p + (16 + code.unitBytes.length + code.padding.length)) c q) := by
  obtain ⟨hplain, hcatches⟩ := holdsAt_of_encode h hat
  obtain ⟨htryCount, hunitCount, hitem⟩ := encode_eq_ok_iff.mp h
  obtain ⟨hheader, hunits⟩ := Bytes.holdsAt_append.mp hplain
  have hheader := recovers_header (code.headerOf off) data p hheader
  have hunits := recovers_units code data _ hunits
  rw [Array.length_toList, size_encode_header] at hheader hunits
  have hunitWord : (code.headerOf off).unitCount.toNat = code.instructions.size :=
    toNat_toUInt32 hunitCount
  have htryWord : (code.headerOf off).tryCount.toNat = code.tries.size := by
    change code.tries.size.toUInt16.toNat = _
    rw [Nat.toUInt16_eq, UInt16.toNat_ofNat', Nat.mod_eq_of_lt htryCount]
  unfold decode decodeAfter
  rw [reads_bind_iff_of_reads hheader, hunitWord, reads_bind_iff_of_reads hunits]
  have hzero : ((code.headerOf off).tryCount == 0) = true ↔ code.tries = #[] := by
    rw [beq_iff_eq, ← UInt16.toNat_inj, htryWord, UInt16.toNat_zero, Array.size_eq_zero_iff]
  by_cases hempty : code.tries = #[]
  · rw [if_pos (hzero.mpr hempty)]
    simp only [if_pos hempty, pure_bind, reads_pure_iff]
    have hlength : item.length = 16 + code.unitBytes.length := by
      rcases hitem with ⟨-, rfl⟩ | ⟨hne, -⟩
      · simp
      · exact absurd hempty hne
    constructor
    · rintro ⟨rfl, rfl⟩
      exact ⟨_, rfl, rfl, by omega⟩
    · rintro ⟨_, rfl, rfl, rfl⟩
      exact ⟨rfl, by omega⟩
  · rw [if_neg fun heq => hempty (hzero.mp heq), htryWord]
    simp only [if_neg hempty]
    obtain ⟨tries, -, hbefore⟩ := hcatches hempty
    have hpadding : data.HoldsAt (p + 16 + code.unitBytes.length) code.padding := by
      simp only [beforeHandlers, Array.toList_append, List.append_assoc, Bytes.holdsAt_append,
        Array.length_toList, size_encode_header] at hbefore
      exact hbefore.2.2.1
    refine (reads_padding_iff hunitCount hpadding).trans ?_
    rw [reads_bind_iff]
    simp only [reads_pure_iff, Nat.add_assoc]
    constructor
    · rintro ⟨c, r, hc, rfl, rfl⟩
      exact ⟨c, rfl, hc⟩
    · rintro ⟨c, rfl, hc⟩
      exact ⟨c, q, hc, rfl, rfl⟩

/-- Where the list of handlers of a body starts that is written at `p`. -/
def listStart (code : CodeItem) (p : Nat) (tries : List UInt8) : Nat :=
  p + (16 + code.unitBytes.length + code.padding.length) + tries.length

theorem listStart_eq {tries : List UInt8} :
    p + (code.beforeHandlers off tries).size = code.listStart p tries := by
  simp only [beforeHandlers, List.size_toArray, List.length_append, Array.length_toList,
    size_encode_header, listStart]
  omega

/-- What is read where a body with try ranges has been written: the handlers that they name, and
those that are met by a walk that takes as many steps as the body has handlers. -/
theorem reads_decode_iff_of_tries (h : code.encode off = .ok item) (hne : code.tries ≠ #[])
    (hat : data.HoldsAt p item.toBytes.toList) :
    ∃ stored tries, List.Forall₂ (Catches.Dispatches code.handlers) stored code.tries.toList ∧
      Bytes.pieces code.tryBytes code.tries.toList = .ok tries ∧
      code.listStart p tries ≤ data.size ∧
      ∀ code' q, (decode g debugInfo).Reads data p code' q ↔ ∃ c₀ c : Catches,
        code' = { code with debugInfo := debugInfo, tries := c.tries, handlers := c.handlers } ∧
        (stored.foldlM (Catches.addTry g (code.listStart p tries)) .empty).Reads data
          (code.listStart p tries) c₀ (code.listStart p tries) ∧
        (Catches.addListed g (code.listStart p tries) code.handlers.size c₀).Reads data
          (code.listStart p tries + code.countBytes.size) c q := by
  obtain ⟨tries, htries, hbefore⟩ := (holdsAt_of_encode h hat).2 hne
  obtain ⟨stored, hstored, rfl⟩ := exists_storedTries htries
  have hcount : code.handlers.size < 2 ^ 32 := by
    rcases encode_eq_ok_iff.mp h with ⟨-, -, ⟨hempty, -⟩ | ⟨-, hcount, -⟩⟩
    · exact absurd hempty hne
    · exact hcount
  have hlength : stored.length = code.tries.size := by
    rw [hstored.length_eq, Array.length_toList]
  have hlist : data.HoldsAt (p + (16 + code.unitBytes.length + code.padding.length))
      ((stored.flatMap fun t => t.encode.toList) ++ code.countBytes.toList) := by
    rw [Array.toList_append, beforeHandlers, List.append_assoc, Bytes.holdsAt_append] at hbefore
    simp only [List.length_append, Array.length_toList, size_encode_header] at hbefore
    exact hbefore.2
  have hle : code.listStart p (stored.flatMap fun t => t.encode.toList) ≤ data.size := by
    have hfits := hlist.add_length_le (List.ne_nil_of_length_pos (by
      rw [List.length_append, Array.length_toList]
      exact Nat.add_pos_right _ (Leb128.encodeUnsigned_size_pos _)))
    rw [List.length_append, ← Nat.add_assoc] at hfits
    exact Nat.le_trans (Nat.le_add_right ..) hfits
  refine ⟨stored, _, hstored, htries, hle, fun code' q => ?_⟩
  rw [reads_decode_iff h hat]
  simp only [if_neg hne, ← hlength, reads_catches_iff hlist, toNat_toUInt32 hcount]
  constructor
  · rintro ⟨c, hcode, c₀, hfold, hwalk⟩
    exact ⟨c₀, c, hcode, hfold, hwalk⟩
  · rintro ⟨c₀, c, hcode, hfold, hwalk⟩
    exact ⟨c, hcode, c₀, hfold, hwalk⟩

theorem exists_of_dispatches {handlers : Array CatchHandler} {stored : List StoredTry}
    {tries : List TryRange} (h : List.Forall₂ (Catches.Dispatches handlers) stored tries) :
    ∀ s ∈ stored, ∃ x ∈ handlers, x.listOffset = s.handlerOffset := by
  induction h with
  | nil => simp
  | cons hst _ ih =>
    obtain ⟨-, -, x, hx, ho⟩ := hst
    exact List.forall_mem_cons.mpr ⟨⟨x, Array.mem_of_getElem? hx, ho⟩, ih⟩

/-- Try ranges that are stored alike have the same handlers, if an offset has one handler at most. -/
theorem forall₂_handlerOf {handlers : Array CatchHandler} {stored : List StoredTry}
    {tries new : List TryRange} (h : List.Forall₂ (Catches.Dispatches code.handlers) stored tries)
    (h' : List.Forall₂ (Catches.Dispatches handlers) stored new)
    (hunique : ∀ x ∈ code.handlers, ∀ y ∈ handlers, x.listOffset = y.listOffset → x = y) :
    List.Forall₂ (fun t t' => t'.start = t.start ∧ t'.count = t.count ∧
      handlers[t'.handler]? = code.handlerOf? t) tries new := by
  induction h generalizing new with
  | nil =>
    cases h'
    exact .nil
  | cons hst _ ih =>
    cases h' with
    | cons hst' hrest =>
      obtain ⟨hstart, hcount, x, hx, hxo⟩ := hst
      obtain ⟨hstart', hcount', y, hy, hyo⟩ := hst'
      refine .cons ⟨hstart'.trans hstart.symm, hcount'.trans hcount.symm, ?_⟩ (ih hrest)
      rw [handlerOf?, hx, hy, hunique x (Array.mem_of_getElem? hx) y (Array.mem_of_getElem? hy)
        (hxo.trans hyo.symm)]

theorem length_of_contiguous (h : code.encode off = .ok item) (hne : code.tries ≠ #[])
    {tries : List UInt8} (htries : Bytes.pieces code.tryBytes code.tries.toList = .ok tries)
    {handlers : List CatchHandler} (hperm : handlers.Perm code.handlers.toList)
    (hcontiguous : CatchHandler.Contiguous code.countBytes.size handlers) :
    p + item.length = code.listStart p tries + code.countBytes.size +
      (handlers.map fun h => h.encode.size).sum := by
  obtain ⟨-, -, ⟨hempty, -⟩ | ⟨-, -, -, tries', htries', rfl⟩⟩ := encode_eq_ok_iff.mp h
  · exact absurd hempty hne
  · cases htries.symm.trans htries'
    rw [Stream.length_seek, length_storeHandlers, Stream.length_ofBytes, Array.size_append,
      handlersEnd_perm hperm.symm, handlersEnd_of_contiguous hcontiguous, ← @listStart_eq p code off]
    omega

/-- If the handlers that are read where a body has been written are those of the body, they follow
each other without gaps. -/
theorem handlersContiguous_of_decode (h : code.encode off = .ok item)
    (hat : data.HoldsAt p item.toBytes.toList) (hread : (decode g debugInfo).Reads data p code' q)
    (hperm : code'.handlers.toList.Perm code.handlers.toList) : code.HandlersContiguous := by
  by_cases hne : code.tries = #[]
  · obtain ⟨c, rfl, hc⟩ := (reads_decode_iff h hat).mp hread
    rw [if_pos hne] at hc
    obtain ⟨rfl, -⟩ := hc
    exact ⟨[], hperm, trivial⟩
  obtain ⟨stored, tries, -, htries, -, hreads⟩ := @reads_decode_iff_of_tries g data p
    code off item debugInfo h hne hat
  obtain ⟨c₀, c, rfl, hfold, hlisted⟩ := (hreads code' q).mp hread
  obtain ⟨-, hc₀, -⟩ := Catches.exists_of_addTries Catches.readFrom_empty hfold
  obtain ⟨hc, -, -, walked, hlength, hwalked, hsub, -⟩ :=
    Catches.exists_of_addListed hc₀ (Nat.le_add_right ..) hlisted
  have hnodup : walked.Nodup := (CatchHandler.distinct_of_apart hwalked.apart).nodup
  -- As many steps as there are handlers, none of them taken twice, meet each handler once.
  have hsubperm : walked.Subperm c.handlers.toList :=
    List.subperm_of_subset hnodup fun x hx => Array.mem_toList_iff.mpr (hsub x hx)
  have hwalkedPerm : walked.Perm c.handlers.toList := hsubperm.perm_of_length_le (by
    have := hperm.length_eq
    simp only [Array.length_toList] at this ⊢
    omega)
  refine ⟨walked, hwalkedPerm.trans hperm, hwalked.contiguous fun x hx => ?_⟩
  have hapart : code.handlers.toList.Pairwise CatchHandler.Apart :=
    ((hwalkedPerm.trans hperm).pairwise_iff CatchHandler.Apart.symm).mp hwalked.apart
  rw [← @listStart_eq p code off]
  exact holdsAt_handlers h hne hapart htries hat x ((hwalkedPerm.trans hperm).mem_iff.mp hx)

/-- A body whose handlers follow each other without gaps is read back. -/
theorem exists_decode_of_contiguous (h : code.encode off = .ok item)
    (hat : data.HoldsAt p item.toBytes.toList) (hproper : ∀ x ∈ code.handlers, x.Proper g)
    (hempty : code.tries = #[] → code.handlers = #[]) (hcontiguous : code.HandlersContiguous) :
    ∃ code', (decode g debugInfo).Reads data p code' (p + item.length) ∧
      { code with debugInfo := debugInfo }.Matches code' := by
  by_cases hne : code.tries = #[]
  · refine ⟨{ code with debugInfo := debugInfo, tries := #[], handlers := #[] },
      (reads_decode_iff h hat).mpr ⟨.empty, rfl, ?_⟩, rfl, rfl, rfl, rfl, rfl, ?_, ?_⟩
    · rw [if_pos hne]
      exact ⟨rfl, rfl⟩
    · rw [hne]
      exact .nil
    · rw [hempty hne]
  obtain ⟨handlers, hperm, hcontiguous⟩ := hcontiguous
  obtain ⟨stored, tries, hstored, htries, hle, hreads⟩ := @reads_decode_iff_of_tries g data p
    code off item debugInfo h hne hat
  have hapart := hcontiguous.apart
  have hheld := holdsAt_handlers h hne
    ((hperm.pairwise_iff CatchHandler.Apart.symm).mp hapart) htries hat
  simp only [listStart_eq] at hheld
  have hproper' : ∀ x ∈ handlers, x.Proper g := fun x hx =>
    hproper x (Array.mem_toList_iff.mp (hperm.mem_iff.mp hx))
  have hheld' : ∀ x ∈ handlers, data.HoldsAt (code.listStart p tries + x.listOffset.toNat)
      x.encode.toList := fun x hx => hheld x (hperm.mem_iff.mp hx)
  have hlength : handlers.length = code.handlers.size := by
    rw [hperm.length_eq, Array.length_toList]
  obtain ⟨c₀, hfold⟩ := @Catches.exists_addTries g data
    (code.listStart p tries) _ stored hle (fun s hs => by
      obtain ⟨x, hx, ho⟩ := exists_of_dispatches hstored s hs
      exact ⟨x, hproper x hx, ho, hheld x (Array.mem_toList_iff.mpr hx)⟩) .empty
  obtain ⟨c, hlisted⟩ := Catches.exists_addListed hproper' hcontiguous hheld' c₀
  obtain ⟨-, hc₀, -, ⟨new, hnew, hdispatch⟩, hfrom₀⟩ :=
    Catches.exists_of_addTries Catches.readFrom_empty hfold
  obtain ⟨hc, hprefix, hctries, walked, hsteps, hwalked, hsub, hfrom⟩ :=
    Catches.exists_of_addListed hc₀ (Nat.le_add_right ..) hlisted
  obtain rfl := hwalked.eq_of_contiguous hcontiguous hsteps hproper' hheld'
  -- What has been read is shown by the list, as the handlers of the body are.
  have hshown : ∀ x ∈ code.handlers, x.ShownIn g data (code.listStart p tries) := fun x hx =>
    .of_holdsAt (hproper x hx) (hheld x (Array.mem_toList_iff.mpr hx))
  have hunique : ∀ x ∈ code.handlers, ∀ y ∈ c.handlers, x.listOffset = y.listOffset → x = y :=
    fun x hx y hy ho => (hshown x hx).unique (hc.shown y hy) ho
  have hold : ∀ y ∈ c.handlers, y ∈ code.handlers := by
    intro y hy
    rcases hfrom y hy with hy₀ | hy
    · rcases hfrom₀ y hy₀ with hnone | ⟨s, hs, ho⟩
      · simp [Catches.empty] at hnone
      · obtain ⟨x, hx, hxo⟩ := exists_of_dispatches hstored s hs
        exact hunique x hx y hy (hxo.trans ho.symm) ▸ hx
    · exact Array.mem_toList_iff.mp (hperm.mem_iff.mp hy)
  have hread : (decode g debugInfo).Reads data p { code with
      debugInfo := debugInfo, tries := c.tries, handlers := c.handlers } (p + item.length) := by
    rw [hlength, ← length_of_contiguous h hne htries hperm hcontiguous] at hlisted
    exact (hreads _ _).mpr ⟨c₀, c, rfl, hfold, hlisted⟩
  refine ⟨_, hread, rfl, rfl, rfl, rfl, rfl, ?_, ?_⟩
  · have hnew : c.tries.toList = new := by
      rw [hctries, hnew, Catches.empty, List.nil_append]
    rw [hnew]
    exact forall₂_handlerOf hstored (hdispatch.imp fun _ _ hd => hd.mono hprefix) hunique
  · have hdistinct := (CatchHandler.distinct_of_apart hapart).nodup
    refine ((List.perm_ext_iff_of_nodup hc.distinct.nodup hdistinct).mpr fun x => ?_).trans hperm
    rw [Array.mem_toList_iff]
    exact ⟨fun hx => hperm.mem_iff.mpr (Array.mem_toList_iff.mpr (hold x hx)), hsub x⟩

/-! ## The order of the handlers -/

/-- Handlers that do not overlap leave the same bytes in whatever order they are stored. -/
theorem byteAt?_storeHandlers_perm {listStart : Nat} {handlers handlers' : List CatchHandler}
    (hperm : handlers'.Perm handlers) (hapart : handlers.Pairwise CatchHandler.Apart)
    (stream : Stream) (i : Nat) :
    (storeHandlers listStart stream handlers).byteAt? i =
      (storeHandlers listStart stream handlers').byteAt? i := by
  have hapart' : handlers'.Pairwise CatchHandler.Apart :=
    (hperm.pairwise_iff CatchHandler.Apart.symm).mpr hapart
  by_cases hin : ∃ h ∈ handlers, listStart + h.listOffset.toNat ≤ i ∧
      i < listStart + h.listOffset.toNat + h.encode.size
  · obtain ⟨h, hmem, hle, hlt⟩ := hin
    obtain ⟨k, rfl⟩ := Nat.exists_eq_add_of_le hle
    have hlt : k < h.encode.size := by omega
    have hk : h.encode[k]? = some h.encode[k] := Array.getElem?_eq_getElem hlt
    rw [byteAt?_storeHandlers_mem hapart stream hmem hk,
      byteAt?_storeHandlers_mem hapart' stream (hperm.mem_iff.mpr hmem) hk]
  · have hout : ∀ h ∈ handlers, i < listStart + h.listOffset.toNat ∨
        listStart + h.listOffset.toNat + h.encode.size ≤ i := fun h hmem => by
      by_contra hcover
      exact hin ⟨h, hmem, by omega⟩
    rw [byteAt?_storeHandlers hout,
      byteAt?_storeHandlers fun h hmem => hout h (hperm.mem_iff.mp hmem)]

/-- Bodies that are the same but for the order of their handlers are written alike, if the handlers
do not overlap. -/
theorem Matches.encode (hm : code.Matches code')
    (hapart : code.handlers.toList.Pairwise CatchHandler.Apart) (h : code.encode off = .ok item) :
    ∃ item', code'.encode off = .ok item' ∧ item.Alike item' := by
  obtain ⟨htries, hunits, hrest⟩ := encode_eq_ok_iff.mp h
  have htriesSize : code'.tries.size = code.tries.size := by
    simpa only [Array.length_toList] using hm.tries.length_eq.symm
  have hhandlersSize : code'.handlers.size = code.handlers.size := by
    simpa only [Array.length_toList] using hm.handlers.length_eq
  have hheader : code'.headerOf off = code.headerOf off := by
    simp only [headerOf, hm.registers, hm.ins, hm.outs, hm.instructions, htriesSize]
  have hunitBytes : code'.unitBytes = code.unitBytes := by
    rw [unitBytes, hm.instructions, unitBytes]
  have hnil : code'.tries = #[] ↔ code.tries = #[] := by
    rw [← Array.size_eq_zero_iff, htriesSize, Array.size_eq_zero_iff]
  rcases hrest with ⟨hempty, rfl⟩ | ⟨hne, hcount, hle, tries, hpieces, rfl⟩
  · refine ⟨_, encode_eq_ok_iff.mpr ⟨by omega, by rwa [hm.instructions],
      .inl ⟨hnil.mpr hempty, rfl⟩⟩, ?_⟩
    rw [hheader, hunitBytes]
    exact .refl _
  · have hcountBytes : code'.countBytes = code.countBytes := by
      rw [countBytes, hhandlersSize, countBytes]
    have hbefore : code'.beforeHandlers off tries = code.beforeHandlers off tries := by
      simp only [beforeHandlers, padding, hheader, hunitBytes, hm.instructions]
    have hpieces' : Bytes.pieces code'.tryBytes code'.tries.toList = .ok tries := by
      refine Bytes.pieces_congr_forall₂ hpieces (hm.tries.imp fun t t' ht part hpart => ?_)
      obtain ⟨hstart, hcount, hhandler⟩ := ht
      unfold tryBytes at hpart ⊢
      rw [hhandler, hstart, hcount]
      cases hx : code.handlerOf? t with
      | none =>
        rw [hx] at hpart
        cases hpart
      | some x => rwa [hx] at hpart
    refine ⟨_, encode_eq_ok_iff.mpr ⟨by omega, by rwa [hm.instructions], .inr
      ⟨fun hempty => hne (hnil.mp hempty), by rwa [hhandlersSize], fun x hx => ?_, tries,
      hpieces', rfl⟩⟩, ?_⟩
    · rw [hcountBytes]
      exact hle x (Array.mem_toList_iff.mp (hm.handlers.mem_iff.mp (Array.mem_toList_iff.mpr hx)))
    · rw [hbefore, hcountBytes]
      refine ⟨handlersEnd_perm hm.handlers.symm, ?_, byteAt?_storeHandlers_perm hm.handlers hapart _⟩
      rw [Stream.length_seek, Stream.length_seek, length_storeHandlers, length_storeHandlers,
        handlersEnd_perm hm.handlers]

/-! ## Bodies that are read -/

/-- The handlers of a body that is read are such as a graph can have, and there are none without try
ranges. -/
theorem proper_of_decode (h : (decode g debugInfo).Reads data p code q) :
    code.debugInfo = debugInfo ∧ (∀ x ∈ code.handlers, x.Proper g) ∧
      (code.tries = #[] → code.handlers = #[]) := by
  obtain ⟨header, p₁, -, h⟩ := reads_bind_iff.mp h
  obtain ⟨units, p₂, -, h⟩ := reads_bind_iff.mp h
  have hlist {n p : Nat} (hn : n ≠ 0) (h : (do
      let catches ← Catches.decode g n
      return (⟨header.registers, header.ins, header.outs, debugInfo, units, catches.tries,
        catches.handlers⟩ : CodeItem) : Decoder CodeItem).Reads data p code q) :
      code.debugInfo = debugInfo ∧ (∀ x ∈ code.handlers, x.Proper g) ∧
        (code.tries = #[] → code.handlers = #[]) := by
    obtain ⟨c, _, hc, hpure⟩ := reads_bind_iff.mp h
    obtain ⟨rfl, rfl⟩ := reads_pure_iff.mp hpure
    obtain ⟨listStart, hread, hsize⟩ := Catches.readFrom_of_decode hc
    refine ⟨rfl, fun x hx => ?_, fun hempty => absurd (hsize.symm.trans ?_) hn⟩
    · obtain ⟨_, hx⟩ := hread.shown x hx
      exact (CatchHandler.exists_of_decode hx).2.1
    · exact Array.size_eq_zero_iff.mpr hempty
  split at h
  · obtain ⟨rfl, rfl⟩ := reads_pure_iff.mp h
    exact ⟨rfl, by simp [Catches.empty], fun _ => rfl⟩
  · rename_i hcount
    have hn : header.tryCount.toNat ≠ 0 := fun hzero => hcount (by
      rw [beq_iff_eq, ← UInt16.toNat_inj, hzero, UInt16.toNat_zero])
    split at h
    · obtain ⟨_, _, -, h⟩ := reads_bind_iff.mp h
      exact hlist hn h
    · exact hlist hn h

/-- A body that has been read from whatever bytes, and that is accepted for writing, is read again
where it has been written exactly if its handlers follow each other without gaps. Otherwise what is
read there, if anything is, has lost handlers or has others. -/
theorem decode_encode_iff {data' : Bytes} {p' : Nat} (hread : (decode g debugInfo).Reads data p code q)
    (h : code.encode off = .ok item) (hat : data'.HoldsAt p' item.toBytes.toList) :
    (∃ code' q', (decode g debugInfo).Reads data' p' code' q' ∧ code.Matches code') ↔
      code.HandlersContiguous := by
  obtain ⟨rfl, hproper, hempty⟩ := proper_of_decode hread
  constructor
  · rintro ⟨code', q', hread', hmatches⟩
    exact handlersContiguous_of_decode h hat hread' hmatches.handlers
  · intro hcontiguous
    obtain ⟨code', hread', hmatches⟩ :=
      @exists_decode_of_contiguous _ _ _ _ _ _ code.debugInfo h hat hproper hempty hcontiguous
    exact ⟨code', _, hread', hmatches⟩

/-- A body whose two handlers are stored in shortest form is read back. -/
theorem decode_encode_iff_tidy : ∃ code item,
    (decode .empty none).Reads #[1, 0, 0, 0, 0, 0, 1, 0, 0, 0, 0, 0, 1, 0, 0, 0, 0x0E, 0, 0, 0,
      0, 0, 0, 0, 1, 0, 1, 0, 2, 0, 2, 0, 5] 0 code 33 ∧
    code.encode 0 = .ok item ∧
    ∃ code' q', (decode .empty none).Reads item.toBytes 0 code' q' ∧ code.Matches code' := by
  let code : CodeItem := ⟨1, 0, 0, none, #[0x000E], #[⟨0, 1, 0⟩],
    #[⟨true, 1, #[⟨none, 2⟩]⟩, ⟨true, 3, #[⟨none, 5⟩]⟩]⟩
  have hread : (decode .empty none).Reads #[1, 0, 0, 0, 0, 0, 1, 0, 0, 0, 0, 0, 1, 0, 0, 0, 0x0E, 0,
      0, 0, 0, 0, 0, 0, 1, 0, 1, 0, 2, 0, 2, 0, 5] 0 code 33 := by
    unfold Reads
    decide +kernel
  obtain ⟨item, hitem⟩ : ∃ item, code.encode 0 = .ok item := ⟨_, rfl⟩
  have hat : item.toBytes.HoldsAt 0 item.toBytes.toList := by
    have hextract := Bytes.holdsAt_extract item.toBytes 0 item.toBytes.size
    rwa [Array.extract_size] at hextract
  exact ⟨code, item, hread, hitem, (decode_encode_iff hread hitem hat).mpr
    ⟨code.handlers.toList, .refl _, rfl, rfl, trivial⟩⟩

/-- A body with two handlers, of which the first is stored with one byte more than necessary, does
not survive: the byte that is saved is taken for a handler, and the second handler is not met. -/
theorem decode_encode_padded : ∃ code item,
    (decode .empty none).Reads #[1, 0, 0, 0, 0, 0, 1, 0, 0, 0, 0, 0, 1, 0, 0, 0, 0x0E, 0, 0, 0,
      0, 0, 0, 0, 1, 0, 1, 0, 2, 0x80, 0, 2, 0, 5] 0 code 34 ∧
    code.encode 0 = .ok item ∧
    ¬ ∃ code' q', (decode .empty none).Reads item.toBytes 0 code' q' ∧ code.Matches code' := by
  let code : CodeItem := ⟨1, 0, 0, none, #[0x000E], #[⟨0, 1, 0⟩],
    #[⟨true, 1, #[⟨none, 2⟩]⟩, ⟨true, 4, #[⟨none, 5⟩]⟩]⟩
  have hread : (decode .empty none).Reads #[1, 0, 0, 0, 0, 0, 1, 0, 0, 0, 0, 0, 1, 0, 0, 0, 0x0E, 0,
      0, 0, 0, 0, 0, 0, 1, 0, 1, 0, 2, 0x80, 0, 2, 0, 5] 0 code 34 := by
    unfold Reads
    decide +kernel
  obtain ⟨item, hitem, hother⟩ : ∃ item, code.encode 0 = .ok item ∧
      (decode .empty none).Reads item.toBytes 0 { code with
        handlers := #[⟨true, 1, #[⟨none, 2⟩]⟩, ⟨true, 3, #[⟨none, 0⟩]⟩] } 33 := by
    refine ⟨_, rfl, ?_⟩
    unfold Reads
    decide +kernel
  refine ⟨code, item, hread, hitem, ?_⟩
  rintro ⟨code', q', hread', hmatches⟩
  obtain ⟨rfl, -⟩ := hread'.unique hother
  exact absurd hmatches.handlers (by decide)

end CodeItem

end DexGraph
