import DexGraph.Bytes.Stream
import DexGraph.Proofs.Bytes.HoldsAt

/-!
# What a stream stores

`Stream.byteAt? s i` is the byte that was last stored at position `i`, if any was. Every operation
of a stream has one equation for it, and `Stream.getElem?_contents` reads the contents off it:
the stored bytes over zeros.

A stream is `Tight` if its cursor stands at its length and nothing is stored past it. The items of
an image are tight, and so is an image while it grows.
-/

namespace DexGraph

/-- The byte that a store puts at a position. -/
def Store.byteAt? (store : Store) (i : Nat) : Option UInt8 :=
  if store.position ≤ i then store.bytes[i - store.position]? else none

namespace Stream

/-- The byte that was last stored at a position. -/
def byteAt? (s : Stream) (i : Nat) : Option UInt8 :=
  s.stores.foldl (fun found store => (store.byteAt? i).or found) none

private theorem foldl_or (stores : List Store) (i : Nat) (found : Option UInt8) :
    stores.foldl (fun found store => (store.byteAt? i).or found) found =
      (stores.foldl (fun found store => (store.byteAt? i).or found) none).or found := by
  induction stores generalizing found with
  | nil => simp
  | cons store stores ih =>
    rw [List.foldl_cons, List.foldl_cons, ih, ih ((store.byteAt? i).or none)]
    simp [Option.or_assoc]

private theorem foldl_cons_or (store : Store) (stores : List Store) (i : Nat) :
    (store :: stores).foldl (fun found store => (store.byteAt? i).or found) none =
      (stores.foldl (fun found store => (store.byteAt? i).or found) none).or
        (store.byteAt? i) := by
  rw [List.foldl_cons, foldl_or, Option.or_none]

@[simp] theorem byteAt?_empty (i : Nat) : (∅ : Stream).byteAt? i = none := rfl

@[simp] theorem byteAt?_seek (s : Stream) (p i : Nat) : (s.seek p).byteAt? i = s.byteAt? i := rfl

@[simp] theorem byteAt?_skip (s : Stream) (n i : Nat) : (s.skip n).byteAt? i = s.byteAt? i := rfl

@[simp] theorem byteAt?_alignTo (s : Stream) (n i : Nat) :
    (s.alignTo n).byteAt? i = s.byteAt? i := rfl

theorem byteAt?_write (s : Stream) (bytes : Bytes) (i : Nat) :
    (s.write bytes).byteAt? i =
      (if s.position ≤ i then bytes[i - s.position]? else none).or (s.byteAt? i) := by
  obtain ⟨stores, position, length⟩ := s
  simp only [write, byteAt?, Array.foldl_push, Store.byteAt?]

theorem byteAt?_append (s item : Stream) (i : Nat) :
    (s ++ item).byteAt? i =
      (if s.position ≤ i then item.byteAt? (i - s.position) else none).or (s.byteAt? i) := by
  obtain ⟨stores, position, length⟩ := s
  have hshift (store : Store) : (store.shift position).byteAt? i =
      if position ≤ i then store.byteAt? (i - position) else none := by
    change (if position + store.position ≤ i then store.bytes[i - (position + store.position)]?
      else none) = _
    simp only [Store.byteAt?]
    by_cases hi : position ≤ i
    · rw [if_pos hi]
      by_cases hs : store.position ≤ i - position
      · rw [if_pos hs, if_pos (by omega), Nat.sub_add_eq]
      · rw [if_neg hs, if_neg (by omega)]
    · rw [if_neg hi, if_neg (by omega)]
  have hfold (l : List Store) : (l.map (·.shift position)).foldl
      (fun found store => (store.byteAt? i).or found) none =
      if position ≤ i then
        l.foldl (fun found store => (store.byteAt? (i - position)).or found) none
      else none := by
    induction l with
    | nil => simp
    | cons store l ih =>
      rw [List.map_cons, foldl_cons_or, ih, hshift, foldl_cons_or]
      split <;> simp
  have happend : (Stream.mk stores position length ++ item) =
      ⟨stores ++ item.stores.map (·.shift position), position + item.position,
        max length (position + item.length)⟩ := rfl
  rw [happend]
  simp only [byteAt?, ← Array.foldl_toList, Array.toList_append, Array.toList_map,
    List.foldl_append]
  rw [foldl_or, hfold]

theorem byteAt?_ofBytes (bytes : Bytes) (i : Nat) : (ofBytes bytes).byteAt? i = bytes[i]? := by
  rw [ofBytes, byteAt?_write]
  simp [empty, byteAt?]

/-! ## Cursor and length -/

@[simp] theorem position_append (s item : Stream) :
    (s ++ item).position = s.position + item.position := rfl

@[simp] theorem length_append (s item : Stream) :
    (s ++ item).length = max s.length (s.position + item.length) := rfl

@[simp] theorem position_write (s : Stream) (bytes : Bytes) :
    (s.write bytes).position = s.position + bytes.size := rfl

@[simp] theorem position_seek (s : Stream) (p : Nat) : (s.seek p).position = p := rfl

@[simp] theorem position_skip (s : Stream) (n : Nat) :
    (s.skip n).position = s.position + n := rfl

@[simp] theorem position_ofBytes (bytes : Bytes) : (ofBytes bytes).position = bytes.size := by
  simp [ofBytes, empty]

@[simp] theorem length_ofBytes (bytes : Bytes) : (ofBytes bytes).length = bytes.size := by
  simp [ofBytes, length_write, empty]

/-! ## Contents -/

private theorem getElem?_foldl_overlay (stores : List Store) (bytes : Bytes) (i : Nat) :
    (stores.foldl (fun bytes store => bytes.overlay store.position store.bytes) bytes)[i]? =
      if i < bytes.size then
        (stores.foldl (fun found store => (store.byteAt? i).or found) none).or bytes[i]?
      else none := by
  induction stores generalizing bytes with
  | nil => split <;> simp_all
  | cons store stores ih =>
    rw [List.foldl_cons, ih, Bytes.size_overlay, foldl_cons_or]
    split
    case isFalse => rfl
    rename_i hi
    rw [Option.or_assoc, Bytes.getElem?_overlay, Store.byteAt?]
    congr 1
    by_cases hin : store.position ≤ i ∧ i < store.position + store.bytes.size ∧ i < bytes.size
    · rw [if_pos hin, if_pos hin.1, Array.getElem?_eq_getElem (by omega), Option.some_or]
    · rw [if_neg hin]
      split
      · rename_i hle
        have hge : store.bytes.size ≤ i - store.position := by
          by_contra hlt
          exact hin ⟨hle, by omega, hi⟩
        rw [Array.getElem?_eq_none hge, Option.none_or]
      · rw [Option.none_or]

theorem getElem?_contents (s : Stream) (n i : Nat) :
    (s.contents n)[i]? = if i < n then some ((s.byteAt? i).getD 0) else none := by
  rw [contents, ← Array.foldl_toList, getElem?_foldl_overlay, Array.size_replicate, byteAt?,
    ← Array.foldl_toList]
  split
  · rename_i hi
    rw [Array.getElem?_replicate, if_pos hi]
    cases List.foldl (fun found store => (store.byteAt? i).or found) none s.stores.toList <;> rfl
  · rfl

/-! ## Tight streams -/

/-- The cursor stands at the length, past which nothing is stored. -/
structure Tight (s : Stream) : Prop where
  position_eq : s.position = s.length
  lt_length : ∀ i b, s.byteAt? i = some b → i < s.length

theorem tight_ofBytes (bytes : Bytes) : (ofBytes bytes).Tight where
  position_eq := by simp
  lt_length i b h := by
    rw [byteAt?_ofBytes] at h
    simpa using (Array.getElem?_eq_some_iff.mp h).1

theorem toBytes_ofBytes (bytes : Bytes) : (ofBytes bytes).toBytes = bytes := by
  apply Array.ext_getElem?
  intro i
  rw [toBytes, getElem?_contents, byteAt?_ofBytes, length_ofBytes]
  split
  · rename_i hi
    simp [Array.getElem?_eq_getElem hi]
  · rename_i hi
    rw [Array.getElem?_eq_none (by omega)]

theorem getElem?_toBytes (s : Stream) (i : Nat) :
    s.toBytes[i]? = if i < s.length then some ((s.byteAt? i).getD 0) else none :=
  getElem?_contents s s.length i

@[simp] theorem size_toBytes (s : Stream) : s.toBytes.size = s.length :=
  size_contents ..

/-! ## Fresh streams -/

/-- Nothing has been stored from the cursor on. -/
def Fresh (s : Stream) : Prop :=
  ∀ i b, s.byteAt? i = some b → i < s.position

theorem Tight.fresh {s : Stream} (h : s.Tight) : s.Fresh := by
  intro i b hb
  rw [h.position_eq]
  exact h.lt_length i b hb

/-- What is put down on a fresh stream stands there as it is. -/
theorem Fresh.holdsAt_append {s : Stream} (h : s.Fresh) (item : Stream) :
    (s ++ item).toBytes.HoldsAt s.position item.toBytes.toList := by
  intro i b hi
  rw [Array.getElem?_toList, getElem?_toBytes] at hi
  split at hi
  · have hnone : s.byteAt? (s.position + i) = none := by
      refine Option.eq_none_iff_forall_not_mem.mpr fun c hc => ?_
      have := h _ c hc
      omega
    rw [getElem?_toBytes, length_append, if_pos (by omega), byteAt?_append,
      if_pos (Nat.le_add_right ..), Nat.add_sub_cancel_left, hnone, Option.or_none]
    exact hi
  · cases hi

/-- Putting something down leaves what is before the cursor. -/
theorem byteAt?_append_of_lt (s item : Stream) {i : Nat} (hi : i < s.position) :
    (s ++ item).byteAt? i = s.byteAt? i := by
  rw [byteAt?_append, if_neg (by omega), Option.none_or]

/-! ## Streams that are alike -/

/-- The streams stand at the same position, are as long as each other and store the same bytes,
in whatever order these have been stored. -/
structure Alike (s s' : Stream) : Prop where
  position : s.position = s'.position
  length : s.length = s'.length
  byteAt? : ∀ i, s.byteAt? i = s'.byteAt? i

namespace Alike

variable {s s' item item' : Stream}

theorem refl (s : Stream) : s.Alike s :=
  ⟨rfl, rfl, fun _ => rfl⟩

theorem seek (h : s.Alike s') (p : Nat) : (s.seek p).Alike (s'.seek p) :=
  ⟨rfl, h.length, h.byteAt?⟩

theorem skip (h : s.Alike s') (n : Nat) : (s.skip n).Alike (s'.skip n) where
  position := by rw [position_skip, position_skip, h.position]
  length := by rw [length_skip, length_skip, h.length, h.position]
  byteAt? := h.byteAt?

theorem alignTo (h : s.Alike s') (k : Nat) : (s.alignTo k).Alike (s'.alignTo k) := by
  unfold Stream.alignTo
  rw [h.position]
  exact h.skip _

theorem write (h : s.Alike s') (bytes : Bytes) : (s.write bytes).Alike (s'.write bytes) where
  position := by rw [position_write, position_write, h.position]
  length := by rw [length_write, length_write, h.length, h.position]
  byteAt? i := by rw [byteAt?_write, byteAt?_write, h.byteAt?, h.position]

theorem append (h : s.Alike s') (hitem : item.Alike item') :
    (s ++ item).Alike (s' ++ item') where
  position := by rw [position_append, position_append, h.position, hitem.position]
  length := by rw [length_append, length_append, h.length, h.position, hitem.length]
  byteAt? i := by
    rw [byteAt?_append, byteAt?_append, h.byteAt?, h.position, hitem.byteAt?]

theorem contents (h : s.Alike s') (n : Nat) : s.contents n = s'.contents n := by
  apply Array.ext_getElem?
  intro i
  rw [getElem?_contents, getElem?_contents, h.byteAt?]

end Alike

end Stream

end DexGraph
