import DexGraph.Codec.HiddenApi
import DexGraph.Proofs.Bytes.Leb128
import DexGraph.Proofs.Bytes.StoredBytes
import DexGraph.Proofs.Codec.Concat

/-!
# The shape of a hidden-API section

A hidden-API section is the total size, the offset table and the flags of the classes one behind
the other, in as many bytes as it states. The flags of a class are read back from it, if the class
has a slot in the offset table and as many members as flags.
-/

namespace DexGraph

/-- Reading something for every element without moving on. -/
theorem Decoder.reads_mapM {α γ : Type} {f : γ → Decoder α} {data : Bytes} {p : Nat}
    {xs : Array γ} {ys : Array α} (hsize : ys.size = xs.size)
    (h : ∀ (i : Nat) x y, xs[i]? = some x → ys[i]? = some y → (f x).Reads data p y p) :
    (xs.mapM f).Reads data p ys p := by
  have hlist : ∀ (xs : List γ) (ys : List α), ys.length = xs.length →
      (∀ (i : Nat) x y, xs[i]? = some x → ys[i]? = some y → (f x).Reads data p y p) →
      (xs.mapM f).Reads data p ys p := by
    intro xs
    induction xs with
    | nil =>
      intro ys hlen _
      rw [List.length_eq_zero_iff.mp hlen, List.mapM_nil]
      exact reads_pure_iff.mpr ⟨rfl, rfl⟩
    | cons x xs ih =>
      intro ys hlen h
      cases ys with
      | nil => cases hlen
      | cons y ys =>
        rw [List.mapM_cons]
        exact (h 0 x y rfl rfl).bind ((ih ys (Nat.succ.inj hlen) fun i => h (i + 1)).bind
          (reads_pure_iff.mpr ⟨rfl, rfl⟩))
  rw [Array.mapM_eq_mapM_toList]
  refine reads_map_iff.mpr ⟨ys.toList, hlist _ _ (by simpa using hsize) fun i x y hx hy => ?_, by simp⟩
  exact h i x y (by simpa using hx) (by simpa using hy)

namespace HiddenApi

/-- The flags of one class as LEB128 numbers. -/
def flagBytes (flags : Array UInt32) : List UInt8 :=
  flags.toList.flatMap fun flag => (Leb128.encodeUnsigned flag).toList

/-- The offset table of classes whose flags start at a position. -/
def offsetBytes : (position : Nat) → List (Option (Array UInt32)) → List UInt8
  | _, [] => []
  | position, none :: rest => (Bytes.ofWord 0).toList ++ offsetBytes position rest
  | position, some flags :: rest =>
    (Bytes.ofWord position.toUInt32).toList ++ offsetBytes (position + streamSize flags) rest

/-- The bytes of a section of which the total size is known, without the zeros behind them. -/
def body (h : HiddenApi) (total : UInt32) : List UInt8 :=
  (Bytes.ofWord total).toList ++ offsetBytes (4 + 4 * h.flags.size) h.flags.toList ++
    h.flags.toList.flatMap fun flags => flagBytes (flags.getD #[])

/-- The lengths of concatenated pieces, added up from the last piece. -/
private theorem foldr_length {α : Type} (f : α → List UInt8) (size : α → Nat)
    (hf : ∀ x, (f x).length = size x) (n : Nat) (xs : List α) :
    xs.foldr (fun x total => size x + total) n = n + (xs.flatMap f).length := by
  induction xs with
  | nil => rfl
  | cons x xs ih =>
    rw [List.foldr_cons, ih, List.flatMap_cons, List.length_append, hf]
    omega

theorem length_flagBytes (flags : Array UInt32) : (flagBytes flags).length = streamSize flags := by
  rw [streamSize, foldr_length _ _ (fun flag => by
    rw [Array.length_toList, Leb128.size_encodeUnsigned]), Nat.zero_add, flagBytes]

theorem length_offsetBytes (position : Nat) (classes : List (Option (Array UInt32))) :
    (offsetBytes position classes).length = 4 * classes.length := by
  induction classes generalizing position with
  | nil => rfl
  | cons flags rest ih =>
    cases flags <;> simp [offsetBytes, ih] <;> omega

theorem length_body (h : HiddenApi) (total : UInt32) : (h.body total).length = h.byteSize := by
  rw [byteSize, foldr_length (fun flags : Option (Array UInt32) => flagBytes (flags.getD #[])) _
    fun _ => length_flagBytes _]
  simp only [body, List.length_append, length_offsetBytes, Array.length_toList, Bytes.size_ofWord]

private theorem toList_encodeOffsets (position : Nat) (classes : List (Option (Array UInt32)))
    (bytes : Bytes) : (encodeOffsets position classes bytes).toList =
      bytes.toList ++ offsetBytes position classes := by
  induction classes generalizing position bytes with
  | nil => simp [encodeOffsets, offsetBytes]
  | cons flags rest ih =>
    cases flags <;> simp [encodeOffsets, offsetBytes, ih]

private theorem toList_encodeFlags (h : HiddenApi) (bytes : Bytes) :
    (h.encodeFlags bytes).toList =
      bytes.toList ++ h.flags.toList.flatMap fun flags => flagBytes (flags.getD #[]) := by
  have hclass (flags : Option (Array UInt32)) (bytes : Bytes) :
      (flags.getD #[]).foldl (fun bytes flag => bytes ++ Leb128.encodeUnsigned flag) bytes =
        bytes ++ (flagBytes (flags.getD #[])).toArray := by
    apply Array.toList_inj.mp
    rw [← Array.foldl_toList, Bytes.toList_foldl_append]
    simp [flagBytes]
  unfold encodeFlags
  simp only [hclass]
  rw [← Array.foldl_toList, Bytes.toList_foldl_append]

/-- A written section, taken apart. -/
theorem encode_eq_ok_iff {h : HiddenApi} {recorded : UInt32} {item : Stream} :
    h.encode recorded = .ok item ↔ h.byteSize < 2 ^ 32 ∧
      item = ((Stream.ofBytes (h.body (max h.byteSize.toUInt32 recorded)).toArray).seek 0).skip
        (max h.byteSize.toUInt32 recorded).toNat := by
  have hbody (total : UInt32) : h.encodeFlags (encodeOffsets (4 + 4 * h.flags.size) h.flags.toList
      (.ofWord total)) = (h.body total).toArray := by
    apply Array.toList_inj.mp
    rw [toList_encodeFlags, toList_encodeOffsets, body]
  simp only [encode, Except.bind_eq_ok_iff, Except.pure_eq_ok_iff, hbody, toWord_eq_ok_iff_lt]
  constructor
  · rintro ⟨_, ⟨hsize, rfl⟩, rfl⟩
    exact ⟨hsize, rfl⟩
  · rintro ⟨hsize, rfl⟩
    exact ⟨_, ⟨hsize, rfl⟩, rfl⟩

/-- The total size of a section: what it needs or what is recorded, whichever is more. -/
theorem toNat_max_byteSize {h : HiddenApi} (hsize : h.byteSize < 2 ^ 32) (recorded : UInt32) :
    (max h.byteSize.toUInt32 recorded).toNat = max h.byteSize recorded.toNat := by
  have hmax : max h.byteSize.toUInt32 recorded =
      if h.byteSize.toUInt32 ≤ recorded then recorded else h.byteSize.toUInt32 := rfl
  have hword := toNat_toUInt32 hsize
  rw [hmax]
  split
  · rename_i hle
    have := UInt32.le_iff_toNat_le.mp hle
    omega
  · rename_i hle
    have := mt UInt32.le_iff_toNat_le.mpr hle
    omega

theorem byteSize_le {h : HiddenApi} (hsize : h.byteSize < 2 ^ 32) (recorded : UInt32) :
    h.byteSize ≤ (max h.byteSize.toUInt32 recorded).toNat := by
  rw [toNat_max_byteSize hsize]
  exact Nat.le_max_left ..

theorem length_of_encode {h : HiddenApi} {recorded : UInt32} {item : Stream}
    (hitem : h.encode recorded = .ok item) :
    item.length = (max h.byteSize.toUInt32 recorded).toNat := by
  obtain ⟨hsize, rfl⟩ := encode_eq_ok_iff.mp hitem
  have := byteSize_le hsize recorded
  simp only [Stream.length_skip, Stream.length_seek, Stream.length_ofBytes, List.size_toArray,
    length_body, Stream.position_seek]
  omega

/-- The bytes of a section: what is needed, and zeros up to the total size. -/
theorem toList_toBytes_of_encode {h : HiddenApi} {recorded : UInt32} {item : Stream}
    (hitem : h.encode recorded = .ok item) : item.toBytes.toList =
      h.body (max h.byteSize.toUInt32 recorded) ++
        List.replicate (item.length - h.byteSize) 0 := by
  have hlength := length_of_encode hitem
  obtain ⟨hsize, hout⟩ := encode_eq_ok_iff.mp hitem
  have hle := byteSize_le hsize recorded
  have hbody := h.length_body (max h.byteSize.toUInt32 recorded)
  apply List.ext_getElem?
  intro i
  have hbyte : item.byteAt? i = (h.body (max h.byteSize.toUInt32 recorded))[i]? := by
    rw [hout, Stream.byteAt?_skip, Stream.byteAt?_seek, Stream.byteAt?_ofBytes,
      List.getElem?_toArray]
  rw [Array.getElem?_toList, Stream.getElem?_toBytes, hbyte]
  by_cases hi : i < h.byteSize
  · rw [if_pos (by omega), List.getElem?_append_left (by omega),
      List.getElem?_eq_getElem (by omega)]
    rfl
  · rw [List.getElem?_append_right (by omega), List.getElem?_eq_none (by omega),
      List.getElem?_replicate, hbody]
    by_cases hlt : i < item.length
    · rw [if_pos hlt, if_pos (by omega)]
      rfl
    · rw [if_neg hlt, if_neg (by omega)]

/-- A section that is written with its own size recorded stays as it is. -/
theorem encode_length {h : HiddenApi} {recorded : UInt32} {item : Stream}
    (hitem : h.encode recorded = .ok item) : h.encode item.length.toUInt32 = .ok item := by
  have hlength := length_of_encode hitem
  obtain ⟨hsize, hout⟩ := encode_eq_ok_iff.mp hitem
  rw [encode_eq_ok_iff, hlength]
  refine ⟨hsize, hout.trans ?_⟩
  have hword (w : UInt32) : w.toNat.toUInt32 = w := UInt32.ofNat_toNat
  have hmax (b : UInt32) : max h.byteSize.toUInt32 b =
      if h.byteSize.toUInt32 ≤ b then b else h.byteSize.toUInt32 := rfl
  rw [hword, hmax (max h.byteSize.toUInt32 recorded), hmax recorded]
  by_cases hle : h.byteSize.toUInt32 ≤ recorded
  · rw [if_pos hle, if_pos hle]
  · rw [if_neg hle, if_pos (UInt32.le_refl _)]

theorem length_pos_of_encode {h : HiddenApi} {recorded : UInt32} {item : Stream}
    (hitem : h.encode recorded = .ok item) : 0 < item.length := by
  have hle := byteSize_le (encode_eq_ok_iff.mp hitem).1 recorded
  have hpos : 0 < h.byteSize := by
    rw [← h.length_body 0]
    simp [body]
  rw [length_of_encode hitem]
  exact Nat.lt_of_lt_of_le hpos hle

theorem tight_of_encode {h : HiddenApi} {recorded : UInt32} {item : Stream}
    (hitem : h.encode recorded = .ok item) : item.Tight := by
  have hlen := length_of_encode hitem
  obtain ⟨hsize, rfl⟩ := encode_eq_ok_iff.mp hitem
  have hle := byteSize_le hsize recorded
  refine ⟨?_, fun i b hb => ?_⟩
  · rw [hlen]
    simp
  · rw [Stream.byteAt?_skip, Stream.byteAt?_seek, Stream.byteAt?_ofBytes] at hb
    have := (Array.getElem?_eq_some_iff.mp hb).1
    rw [List.size_toArray, length_body] at this
    omega

theorem not_lacksOffset_of_encode {h : HiddenApi} {recorded : UInt32} {e : Error}
    (he : h.encode recorded = .error e) : ¬ e.LacksOffset := by
  simp only [encode, Except.bind_eq_error_iff, Except.pure_ne_error, and_false, exists_false,
    or_false] at he
  exact not_lacksOffset_of_toWord he

/-! ## Reading a section back -/

section Reading

open Decoder

variable {data : Bytes} {start p : Nat}

theorem offsetBytes_cons (position : Nat) (flags : Option (Array UInt32))
    (rest : List (Option (Array UInt32))) : offsetBytes position (flags :: rest) =
      (Bytes.ofWord (if flags.isSome then position.toUInt32 else 0)).toList ++
        offsetBytes (position + (flagBytes (flags.getD #[])).length) rest := by
  cases flags with
  | none => simp [offsetBytes, flagBytes]
  | some flags => simp [offsetBytes, length_flagBytes]

theorem reads_flags {flags : Array UInt32} (h : data.HoldsAt p (flagBytes flags)) :
    (gather flags.size unsignedLeb).Reads data p flags (p + (flagBytes flags).length) := by
  refine reads_gather_iff.mpr ⟨rfl, readsEach_flatMap (fun flag _ p hp => ?_) h⟩
  rw [Array.length_toList]
  exact reads_encodeUnsigned hp

/-- Where the data has the slots of some classes and their flags, the flags of each of them are
read back. -/
theorem reads_decodeClass (hp : p ≤ data.size)
    {classes : List (Option (Array UInt32))} {index position : Nat}
    (hlt : position + (classes.flatMap fun flags => flagBytes (flags.getD #[])).length < 2 ^ 32)
    (hslots : data.HoldsAt (start + 4 + 4 * index) (offsetBytes position classes))
    (hflags : data.HoldsAt (start + position)
      (classes.flatMap fun flags => flagBytes (flags.getD #[])))
    (hpos : 0 < position) (hle : start + position + (classes.flatMap fun flags =>
      flagBytes (flags.getD #[])).length ≤ data.size) {i : Nat} {flags : Option (Array UInt32)}
    (hi : classes[i]? = some flags) {members : Nat} (hmembers : ∀ f ∈ flags, members = f.size) :
    (decodeClass start members (index + i)).Reads data p flags p := by
  induction classes generalizing index position i with
  | nil => cases hi
  | cons first rest ih =>
    rw [List.flatMap_cons, List.length_append] at hle hlt
    rw [List.flatMap_cons, Bytes.holdsAt_append] at hflags
    rw [offsetBytes_cons, Bytes.holdsAt_append, Array.length_toList, Bytes.size_ofWord] at hslots
    obtain ⟨hslot, hslots⟩ := hslots
    cases i with
    | succ i =>
      have hnext : start + 4 + 4 * index + 4 = start + 4 + 4 * (index + 1) := by omega
      rw [hnext] at hslots
      rw [Nat.add_assoc start] at hflags
      have hrest := ih (by omega) hslots hflags.2 (by omega) (by omega) hi
      rwa [Nat.add_right_comm, Nat.add_assoc] at hrest
    | zero =>
      obtain rfl : first = flags := by simpa using hi
      have hword := reads_word_iff.mpr ⟨hslot, rfl⟩
      have hend := hslot.add_size_le (by simp)
      rw [Bytes.size_ofWord] at hend
      unfold decodeClass
      refine Reads.bind (reads_elsewhere_iff.mpr ⟨⟨_, hword⟩, by omega, hp, rfl⟩) ?_
      cases first with
      | none => exact reads_pure_iff.mpr ⟨rfl, rfl⟩
      | some flags =>
        have hoffset : position.toUInt32.toNat = position := toNat_toUInt32 (by omega)
        have hne : (position.toUInt32 == 0) = false := by
          rw [beq_eq_false_iff_ne]
          intro h0
          rw [h0] at hoffset
          exact absurd hoffset (by simpa using Nat.ne_of_lt hpos)
        obtain rfl := hmembers flags rfl
        simp only [Option.isSome_some, if_true, hne, Bool.false_eq_true, if_false]
        refine reads_elsewhere_iff.mpr ⟨⟨_, Reads.bind (reads_flags ?_)
          (reads_pure_iff.mpr ⟨rfl, rfl⟩)⟩, by omega, hp, rfl⟩
        rw [hoffset]
        exact hflags.1

variable {h : HiddenApi} {total : UInt32}

/-- The flags of a class that has a slot are read back from a section. -/
theorem reads_decodeClass_of_body (hbody : data.HoldsAt start (h.body total))
    (hle : start + h.byteSize ≤ data.size) (hlt : h.byteSize < 2 ^ 32) (hp : p ≤ data.size) {i : Nat}
    {flags : Option (Array UInt32)} (hi : h.flags[i]? = some flags) {members : Nat}
    (hmembers : ∀ f ∈ flags, members = f.size) :
    (decodeClass start members i).Reads data p flags p := by
  have hlength := h.length_body total
  unfold body at hbody hlength
  rw [List.append_assoc, Bytes.holdsAt_append, Bytes.holdsAt_append, Array.length_toList,
    Bytes.size_ofWord, length_offsetBytes, Array.length_toList] at hbody
  simp only [List.length_append, Array.length_toList, Bytes.size_ofWord, length_offsetBytes]
    at hlength
  rw [← Nat.zero_add i]
  exact reads_decodeClass hp (by omega) hbody.2.1 (by rw [← Nat.add_assoc]; exact hbody.2.2)
    (by omega) (by omega) (by rw [Array.getElem?_toList]; exact hi) hmembers

/-- A section is read back as a whole if every class has a slot. -/
theorem reads_decode_of_body (hbody : data.HoldsAt start (h.body total))
    (hle : start + h.byteSize ≤ data.size) (hlt : h.byteSize < 2 ^ 32) {members : Array Nat}
    (hcount : members.size = h.flags.size)
    (hmembers : ∀ (i : Nat) (f : Array UInt32), h.flags[i]? = some (some f) →
      members[i]? = some f.size) :
    (decode members).Reads data start (total, h) (start + 4) := by
  have htotal : data.HoldsAt start (Bytes.ofWord total).toList := by
    unfold body at hbody
    rw [List.append_assoc, Bytes.holdsAt_append] at hbody
    exact hbody.1
  have hfour := htotal.add_size_le (by simp)
  rw [Bytes.size_ofWord] at hfour
  refine Reads.bind (reads_position_iff.mpr ⟨rfl, rfl⟩)
    (Reads.bind (reads_word_iff.mpr ⟨htotal, rfl⟩) (Reads.bind (a := h.flags) ?_
      (reads_pure_iff.mpr ⟨rfl, rfl⟩)))
  refine reads_mapM (by simpa using hcount.symm) fun i x flags hx hi => ?_
  rw [Array.getElem?_zipIdx] at hx
  obtain ⟨count, hcount, rfl⟩ := Option.map_eq_some_iff.mp hx
  rw [Nat.zero_add]
  refine reads_decodeClass_of_body hbody hle hlt hfour hi fun f hf => ?_
  cases Option.mem_def.mp hf
  exact Option.some.inj (hcount.symm.trans (hmembers i f hi))

end Reading

end HiddenApi

end DexGraph
