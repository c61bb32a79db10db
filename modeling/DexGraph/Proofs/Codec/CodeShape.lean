import DexGraph.Codec.CodeItem
import DexGraph.Proofs.Bytes.StoredBytes
import DexGraph.Proofs.Codec.Concat

/-!
# The shape of a written body

A body is its header, the units of its instructions and, if it has try ranges, the padding to a
whole word, the try ranges, the number of handlers and the handlers, each at its offset in the
list. `CodeItem.encode_eq_ok_iff` takes a written body apart in this way. How long a body is does
not depend on the offset of its debug info (`CodeItem.encode_with_offset`), which is what allows
room to be set aside for a body before that offset is known.
-/

namespace DexGraph

namespace CodeItem

/-! ## Handlers -/

/-- The furthest end of the handlers of a list that starts at `listStart`, at least `stop`. -/
def handlersEnd (listStart : Nat) (stop : Nat) (handlers : List CatchHandler) : Nat :=
  handlers.foldl (fun stop h => max stop (listStart + h.listOffset.toNat + h.encode.size)) stop

/-- Puts handlers at their offsets in the list that starts at `listStart`. -/
def storeHandlers (listStart : Nat) (stream : Stream) (handlers : List CatchHandler) : Stream :=
  handlers.foldl
    (fun stream h => (stream.seek (listStart + h.listOffset.toNat)).write h.encode) stream

theorem foldlM_putHandler_eq_ok_iff {listStart countSize : Nat} {handlers : List CatchHandler}
    {stream : Stream} {stop : Nat} {out : Stream × Nat} :
    handlers.foldlM (putHandler listStart countSize) (stream, stop) = .ok out ↔
      (∀ h ∈ handlers, countSize ≤ h.listOffset.toNat) ∧
        out = (storeHandlers listStart stream handlers, handlersEnd listStart stop handlers) := by
  induction handlers generalizing stream stop with
  | nil => simp [storeHandlers, handlersEnd, Except.pure_eq_ok_iff]
  | cons h rest ih =>
    rw [List.foldlM_cons, Except.bind_eq_ok_iff]
    simp only [putHandler, List.forall_mem_cons]
    split
    · rename_i hlt
      constructor
      · rintro ⟨_, ⟨⟩, _⟩
      · rintro ⟨⟨hle, _⟩, _⟩
        omega
    · rename_i hge
      constructor
      · rintro ⟨_, ⟨⟩, hrest⟩
        obtain ⟨hall, rfl⟩ := ih.mp hrest
        exact ⟨⟨by omega, hall⟩, rfl⟩
      · rintro ⟨⟨_, hall⟩, rfl⟩
        exact ⟨_, rfl, ih.mpr ⟨hall, rfl⟩⟩

theorem not_lacksOffset_of_putHandler {listStart countSize : Nat} {handlers : List CatchHandler}
    {out : Stream × Nat} {e : Error}
    (h : handlers.foldlM (putHandler listStart countSize) out = .error e) : ¬ e.LacksOffset := by
  induction handlers generalizing out with
  | nil => cases h
  | cons handler rest ih =>
    rw [List.foldlM_cons, Except.bind_eq_error_iff] at h
    rcases h with h | ⟨_, _, h⟩
    · unfold putHandler at h
      split at h
      · cases h
        rintro ⟨_, ⟨⟩⟩
      · cases h
    · exact ih h

theorem length_storeHandlers {listStart : Nat} {handlers : List CatchHandler} {stream : Stream} :
    (storeHandlers listStart stream handlers).length =
      handlersEnd listStart stream.length handlers := by
  induction handlers generalizing stream with
  | nil => rfl
  | cons h rest ih =>
    change (storeHandlers listStart _ rest).length = _
    rw [ih, Stream.length_write]
    rfl

theorem byteAt?_storeHandlers_lt {listStart : Nat} {handlers : List CatchHandler}
    {stream : Stream} (hs : ∀ i b, stream.byteAt? i = some b → i < stream.length) :
    ∀ i b, (storeHandlers listStart stream handlers).byteAt? i = some b →
      i < (storeHandlers listStart stream handlers).length := by
  induction handlers generalizing stream with
  | nil => exact hs
  | cons h rest ih =>
    refine ih fun i b hb => ?_
    rw [Stream.byteAt?_write, Option.or_eq_some_iff] at hb
    rw [Stream.length_write]
    rcases hb with hb | ⟨_, hb⟩
    · split at hb
      · have := (Array.getElem?_eq_some_iff.mp hb).1
        omega
      · cases hb
    · have := hs i b hb
      simp only [Stream.length_seek]
      omega

/-- Putting handlers in the list leaves the bytes outside them as they are. -/
theorem byteAt?_storeHandlers {listStart i : Nat} {handlers : List CatchHandler}
    (hi : ∀ h ∈ handlers, i < listStart + h.listOffset.toNat ∨
      listStart + h.listOffset.toNat + h.encode.size ≤ i) (stream : Stream) :
    (storeHandlers listStart stream handlers).byteAt? i = stream.byteAt? i := by
  induction handlers generalizing stream with
  | nil => rfl
  | cons h rest ih =>
    rw [List.forall_mem_cons] at hi
    refine (ih hi.2 _).trans ?_
    rw [Stream.byteAt?_write, Stream.position_seek, Stream.byteAt?_seek]
    split
    · rw [Array.getElem?_eq_none (by omega), Option.none_or]
    · rw [Option.none_or]

/-! ## Bodies -/

/-- The header of a body. -/
def headerOf (code : CodeItem) (debugInfoOffset : UInt32) : CodeHeader :=
  ⟨code.registers, code.ins, code.outs, code.tries.size.toUInt16, debugInfoOffset,
    code.instructions.size.toUInt32⟩

/-- The bytes of the units of the instructions. -/
def unitBytes (code : CodeItem) : List UInt8 :=
  code.instructions.toList.flatMap fun u => (Bytes.ofHalfWord u).toList

/-- The zeros that bring the try ranges to a whole word. -/
def padding (code : CodeItem) : List UInt8 :=
  if code.instructions.size % 2 = 1 then (Bytes.ofHalfWord 0).toList else []

/-- The bytes of a try range of a body. -/
def tryBytes (code : CodeItem) (t : TryRange) : Except Error Bytes :=
  match code.handlerOf? t with
  | some h => .ok (StoredTry.encode ⟨t.start, t.count, h.listOffset⟩)
  | none => .error (.malformed (.missingHandler t.start t.handler))

@[simp] theorem size_encode_header (h : CodeHeader) : h.encode.size = 16 := by
  simp [CodeHeader.encode]

theorem encodeUnits_eq_ok_iff {code : CodeItem} {off : UInt32} {bytes : Bytes} :
    code.encodeUnits off = .ok bytes ↔
      code.tries.size < 2 ^ 16 ∧ code.instructions.size < 2 ^ 32 ∧
        bytes.toList = (code.headerOf off).encode.toList ++ code.unitBytes := by
  simp only [encodeUnits, Except.bind_eq_ok_iff, Except.pure_eq_ok_iff, headerOf, unitBytes,
    ← Array.foldl_toList]
  unfold toHalfWord toWord
  split <;> split <;> simp_all [← Array.toList_inj, List.flatMap_def, Function.comp_def]

theorem encodeTries_eq {code : CodeItem} {bytes : Bytes} :
    code.encodeTries bytes =
      code.tries.toList.foldlM (fun bytes t => return bytes ++ (← code.tryBytes t)) bytes := by
  unfold encodeTries
  rw [← Array.foldlM_toList]
  congr 1
  funext bytes t
  unfold tryBytes
  cases code.handlerOf? t <;> rfl

theorem encodeTries_eq_ok_iff {code : CodeItem} {bytes out : Bytes} :
    code.encodeTries bytes = .ok out ↔
      ∃ tail, Bytes.pieces code.tryBytes code.tries.toList = .ok tail ∧
        out.toList = bytes.toList ++ tail := by
  rw [encodeTries_eq, Bytes.foldlM_append_eq_ok_iff]

/-- The number of handlers as it stands before them. -/
def countBytes (code : CodeItem) : Bytes :=
  Leb128.encodeUnsigned code.handlers.size.toUInt32

/-- What stands before the handlers of a body that has try ranges `tries`. -/
def beforeHandlers (code : CodeItem) (off : UInt32) (tries : List UInt8) : Bytes :=
  ((code.headerOf off).encode.toList ++ code.unitBytes ++ code.padding ++ tries).toArray

/-- A written body, taken apart. -/
theorem encode_eq_ok_iff {code : CodeItem} {off : UInt32} {item : Stream} :
    code.encode off = .ok item ↔
      code.tries.size < 2 ^ 16 ∧ code.instructions.size < 2 ^ 32 ∧
        (code.tries = #[] ∧
            item = Stream.ofBytes ((code.headerOf off).encode.toList ++ code.unitBytes).toArray ∨
          code.tries ≠ #[] ∧ code.handlers.size < 2 ^ 32 ∧
            (∀ h ∈ code.handlers, code.countBytes.size ≤ h.listOffset.toNat) ∧
            ∃ tries, Bytes.pieces code.tryBytes code.tries.toList = .ok tries ∧
              item = (storeHandlers (code.beforeHandlers off tries).size
                  (Stream.ofBytes (code.beforeHandlers off tries ++ code.countBytes))
                  code.handlers.toList).seek
                (handlersEnd (code.beforeHandlers off tries).size
                  (code.beforeHandlers off tries ++ code.countBytes).size
                  code.handlers.toList)) := by
  unfold encode
  simp only [Except.bind_eq_ok_iff, encodeUnits_eq_ok_iff]
  constructor
  · rintro ⟨units, ⟨htries, hunits, hlist⟩, h⟩
    refine ⟨htries, hunits, ?_⟩
    split at h
    · rename_i hempty
      rw [Except.pure_eq_ok_iff] at h
      refine .inl ⟨by simpa using hempty, ?_⟩
      rw [h, ← hlist]
    · rename_i hempty
      simp only [Except.bind_eq_ok_iff, Except.pure_eq_ok_iff] at h
      obtain ⟨bytes, hbytes, count, hcount, ⟨stream, stop⟩, hfold, rfl⟩ := h
      obtain ⟨tail, htail, hout⟩ := encodeTries_eq_ok_iff.mp hbytes
      rw [← Array.foldlM_toList, foldlM_putHandler_eq_ok_iff] at hfold
      obtain ⟨hall, hpair⟩ := hfold
      have hcount' : code.handlers.size = count.toNat := toWord_eq_ok_iff.mp hcount
      have hsize : code.countBytes = Leb128.encodeUnsigned count := by
        rw [countBytes, hcount']
        simp
      have hbefore : bytes = code.beforeHandlers off tail := by
        apply Array.toList_inj.mp
        rw [hout, beforeHandlers, padding]
        split at * <;> simp_all
      refine .inr ⟨by simpa using hempty, hcount' ▸ count.toNat_lt, ?_, tail, htail, ?_⟩
      · intro h hh
        rw [hsize]
        exact hall h (by simpa using hh)
      · cases hpair
        rw [hsize, ← hbefore, Stream.position_ofBytes]
  · rintro ⟨htries, hunits, h⟩
    refine ⟨((code.headerOf off).encode.toList ++ code.unitBytes).toArray,
      ⟨htries, hunits, rfl⟩, ?_⟩
    rcases h with ⟨hempty, rfl⟩ | ⟨hempty, hcount, hall, tries, htail, rfl⟩
    · rw [if_pos (by simpa using hempty)]
      rfl
    · rw [if_neg (by simpa using hempty)]
      simp only [Except.bind_eq_ok_iff, Except.pure_eq_ok_iff]
      have hword : toWord code.handlers.size = .ok code.handlers.size.toUInt32 :=
        toWord_eq_ok_iff_lt.mpr ⟨hcount, rfl⟩
      refine ⟨code.beforeHandlers off tries, encodeTries_eq_ok_iff.mpr ⟨tries, htail, ?_⟩, _,
        hword, (_, _), ?_, rfl⟩
      · rw [beforeHandlers, padding]
        split <;> simp_all
      · rw [← Array.foldlM_toList, foldlM_putHandler_eq_ok_iff]
        refine ⟨fun h hh => hall h (by simpa using hh), ?_⟩
        rw [Stream.position_ofBytes]
        rfl

theorem tight_of_encode {code : CodeItem} {off : UInt32} {item : Stream}
    (h : code.encode off = .ok item) : item.Tight := by
  obtain ⟨-, -, ⟨-, rfl⟩ | ⟨-, -, -, tries, -, rfl⟩⟩ := encode_eq_ok_iff.mp h
  · exact Stream.tight_ofBytes _
  · constructor
    · simp only [Stream.position_seek, Stream.length_seek, length_storeHandlers,
        Stream.length_ofBytes]
    · intro i b hb
      exact byteAt?_storeHandlers_lt (Stream.tight_ofBytes _).lt_length i b hb

theorem le_handlersEnd (listStart stop : Nat) (handlers : List CatchHandler) :
    stop ≤ handlersEnd listStart stop handlers := by
  induction handlers generalizing stop with
  | nil => exact Nat.le_refl _
  | cons h rest ih => exact Nat.le_trans (Nat.le_max_left ..) (ih _)

theorem le_length_of_encode {code : CodeItem} {off : UInt32} {item : Stream}
    (h : code.encode off = .ok item) : 16 ≤ item.length := by
  obtain ⟨-, -, ⟨-, rfl⟩ | ⟨-, -, -, tries, -, rfl⟩⟩ := encode_eq_ok_iff.mp h
  · simp
  · rw [Stream.length_seek, length_storeHandlers, Stream.length_ofBytes]
    refine Nat.le_trans ?_ (le_handlersEnd ..)
    simp [beforeHandlers]
    omega

/-- What an image that holds a written body holds before the handlers. -/
theorem holdsAt_of_encode {code : CodeItem} {off : UInt32} {item : Stream}
    (h : code.encode off = .ok item) {data : Bytes} {p : Nat}
    (hat : data.HoldsAt p item.toBytes.toList) :
    data.HoldsAt p ((code.headerOf off).encode.toList ++ code.unitBytes) ∧
      (code.tries ≠ #[] → ∃ tries, Bytes.pieces code.tryBytes code.tries.toList = .ok tries ∧
        data.HoldsAt p (code.beforeHandlers off tries ++ code.countBytes).toList) := by
  obtain ⟨-, -, ⟨hempty, rfl⟩ | ⟨hempty, -, hall, tries, htries, rfl⟩⟩ := encode_eq_ok_iff.mp h
  · rw [Stream.toBytes_ofBytes] at hat
    exact ⟨hat, fun hne => absurd hempty hne⟩
  · have hbefore :
        data.HoldsAt p (code.beforeHandlers off tries ++ code.countBytes).toList := by
      intro i b hi
      apply hat
      rw [Array.getElem?_toList] at hi ⊢
      have hlt := (Array.getElem?_eq_some_iff.mp hi).1
      rw [Array.size_append] at hlt
      rw [Stream.getElem?_toBytes, Stream.length_seek, length_storeHandlers, Stream.length_ofBytes,
        if_pos, Stream.byteAt?_seek, byteAt?_storeHandlers, Stream.byteAt?_ofBytes, hi]
      · rfl
      · intro h hh
        have := hall h (by simpa using hh)
        omega
      · exact Nat.lt_of_lt_of_le (by rwa [Array.size_append]) (le_handlersEnd ..)
    refine ⟨?_, fun _ => ⟨tries, htries, hbefore⟩⟩
    rw [Array.toList_append, beforeHandlers, List.append_assoc, List.append_assoc,
      Bytes.holdsAt_append] at hbefore
    exact hbefore.1

/-- A body can be written with any offset of its debug info, and is as long with each. -/
theorem encode_with_offset {code : CodeItem} {off : UInt32} {item : Stream}
    (h : code.encode off = .ok item) (off' : UInt32) :
    ∃ item', code.encode off' = .ok item' ∧ item'.length = item.length := by
  obtain ⟨htries, hunits, ⟨hempty, rfl⟩ | ⟨hempty, hcount, hall, tries, htail, rfl⟩⟩ :=
    encode_eq_ok_iff.mp h
  · exact ⟨_, encode_eq_ok_iff.mpr ⟨htries, hunits, .inl ⟨hempty, rfl⟩⟩, by simp⟩
  · refine ⟨_, encode_eq_ok_iff.mpr ⟨htries, hunits, .inr ⟨hempty, hcount, hall, tries, htail,
      rfl⟩⟩, ?_⟩
    simp only [Stream.length_seek, length_storeHandlers, Stream.length_ofBytes]
    simp [beforeHandlers]

theorem not_lacksOffset_of_encode {code : CodeItem} {off : UInt32} {e : Error}
    (h : code.encode off = .error e) : ¬ e.LacksOffset := by
  unfold encode at h
  simp only [Except.bind_eq_error_iff] at h
  rcases h with h | ⟨units, -, h⟩
  · simp only [encodeUnits, Except.bind_eq_error_iff, Except.pure_ne_error, and_false,
      exists_false, or_false] at h
    rcases h with h | ⟨_, _, h⟩
    · exact not_lacksOffset_of_toHalfWord h
    · exact not_lacksOffset_of_toWord h
  · split at h
    · exact absurd h Except.pure_ne_error
    · simp only [Except.bind_eq_error_iff, Except.pure_ne_error, and_false, exists_false,
        or_false] at h
      rcases h with h | ⟨bytes, -, h | ⟨count, -, h⟩⟩
      · rw [encodeTries_eq] at h
        obtain ⟨t, -, ht⟩ := Bytes.foldlM_append_eq_error h
        unfold tryBytes at ht
        split at ht
        · cases ht
        · cases ht
          rintro ⟨_, ⟨⟩⟩
      · exact not_lacksOffset_of_toWord h
      · rw [← Array.foldlM_toList] at h
        exact not_lacksOffset_of_putHandler h

end CodeItem

end DexGraph
