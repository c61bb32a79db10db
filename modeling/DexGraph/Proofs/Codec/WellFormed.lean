import DexGraph.Proofs.Codec.CodeRecovery
import DexGraph.Proofs.Codec.DebugInfoRecovery
import DexGraph.Proofs.Codec.Entity
import DexGraph.Proofs.Codec.ValueRecovery

/-!
# Well-formed entities

Not everything that can be written is read back as it was: a string with a zero in it ends too
early, a debug-info stream that does not end takes in what follows it, and so on.
`Section.WellFormed s x` says that an entity is none of these. The plain items and the members of a
class are read back here; `CatchHandler.WellFormed.proper` does the same for the handlers of bodies.
-/

namespace DexGraph

/-! ## Strings and lists of types -/

namespace Decoder

theorem zeroAmong?_eq_some {data : Bytes} {part : List UInt8} (hne : ∀ b ∈ part, b ≠ 0) {p : Nat}
    (hat : data.HoldsAt p (part ++ [0])) {count : Nat} (hcount : part.length < count) :
    zeroAmong? data count p = some (p + part.length) := by
  induction part generalizing p count with
  | nil =>
    obtain ⟨count, rfl⟩ := Nat.exists_eq_succ_of_ne_zero (Nat.ne_of_gt hcount)
    rw [zeroAmong?, Bytes.holdsAt_singleton.mp hat]
    rfl
  | cons b part ih =>
    obtain ⟨count, rfl⟩ := Nat.exists_eq_succ_of_ne_zero (Nat.ne_of_gt (Nat.zero_lt_of_lt hcount))
    obtain ⟨hb, hrest⟩ := Bytes.holdsAt_cons.mp hat
    have hzero : (some b == some (0 : UInt8)) = false := by
      simpa using hne b List.mem_cons_self
    rw [zeroAmong?, hb, hzero]
    simp only [Bool.false_eq_true, if_false]
    rw [ih (fun c hc => hne c (List.mem_cons_of_mem _ hc)) hrest (Nat.lt_of_succ_lt_succ hcount)]
    rw [List.length_cons]
    exact congrArg some (by omega)

/-- A string ends at the first zero. -/
theorem recovers_cstring {bytes : Bytes} (hne : ∀ b ∈ bytes, b ≠ 0) :
    cstring.Recovers (bytes.toList ++ [0]) bytes := by
  intro data p hat
  have hle := hat.add_length_le (by simp)
  rw [List.length_append, List.length_singleton, Array.length_toList] at hle
  have hcount : bytes.toList.length < data.size - p := by
    rw [Array.length_toList]
    omega
  have hzero := zeroAmong?_eq_some (fun b hb => hne b (Array.mem_toList_iff.mp hb)) hat hcount
  unfold Reads runAt cstring
  rw [hzero]
  rw [Array.length_toList]
  simp only [Bytes.extract_eq_of_holdsAt (Bytes.holdsAt_append.mp hat).1 (by omega),
    List.length_append, List.length_singleton, Array.length_toList, Nat.add_assoc]

end Decoder

theorem StringData.decode_recovers {x : StringData} (hne : ∀ b ∈ x.bytes, b ≠ 0) :
    StringData.decode.Recovers x.encode.toList x := by
  unfold StringData.encode
  rw [Array.toList_append, Array.toList_append, List.append_assoc]
  exact Decoder.recovers_unsignedLeb.bind
    ((Decoder.recovers_cstring hne).map (g := fun bytes => (⟨x.utf16Length, bytes⟩ : StringData)))

theorem TypeList.decode_recovers {g : Graph} {x : TypeList} {part : Bytes}
    (h : x.encode = .ok part) (hrefs : ∀ r ∈ x.types, g.Has .typeId r) :
    (TypeList.decode g).Recovers part.toList x := by
  obtain ⟨hsize, tail, htail, hlist⟩ := encodeList_eq_ok_iff.mp h
  have heach : (do
      let index ← Decoder.halfWord
      Decoder.ofExcept (g.resolve .typeId index.toUInt32) : Decoder (Ref .typeId)).RecoversEach
        tail x.types.toList := by
    refine Decoder.recoversEach_pieces (fun r hr part hpart => ?_) htail
    simp only [Except.bind_eq_ok_iff, Except.pure_eq_ok_iff] at hpart
    obtain ⟨index, hindex, rfl⟩ := hpart
    have hslot : index.toUInt32 = r.slot := by
      rw [toHalfWord_eq_ok_iff] at hindex
      exact UInt32.toNat_inj.mp (by rw [UInt16.toNat_toUInt32]; exact hindex.symm)
    have hresolve := Decoder.recovers_ofExcept (Graph.resolve_slot (hrefs r (by simpa using hr)))
    have hword : Decoder.halfWord.Recovers (Bytes.ofHalfWord index).toList index :=
      Decoder.recovers_halfWord
    have hbind := hword.bind (f := fun index => Decoder.ofExcept (g.resolve .typeId index.toUInt32)) (hslot ▸ hresolve)
    rwa [List.append_nil] at hbind
  rw [hlist]
  exact Decoder.recovers_word.bind
    ((heach.gather (toNat_toUInt32 hsize).symm).map (g := fun types => (⟨types⟩ : TypeList)))

/-! ## Members -/

theorem nextIndex_of_memberDelta {last : Option UInt32} {index delta : UInt32}
    (h : memberDelta last index = .ok delta) : nextIndex (last.getD 0) delta = .ok index := by
  have hindex := index.toNat_lt
  unfold memberDelta at h
  unfold nextIndex
  cases last with
  | none =>
    cases h
    simpa using hindex
  | some p =>
    dsimp only at h
    split at h
    · cases h
    · rename_i hlt
      cases h
      have hle : p.toNat ≤ index.toNat := by
        rw [UInt32.not_le, UInt32.lt_iff_toNat_lt] at hlt
        omega
      have hsub : (index - p).toNat = index.toNat - p.toNat :=
        UInt32.toNat_sub_of_le _ _ (UInt32.le_iff_toNat_le.mpr hle)
      rw [Option.getD_some, hsub, if_pos (by omega)]
      congr 1
      apply UInt32.toNat_inj.mp
      rw [UInt32.toNat_add, hsub]
      omega

namespace FieldItem

/-- The field as it is read, before it is told where it belongs. -/
def bare (f : FieldItem) : FieldItem :=
  { f with classData := none }

theorem decodeFrom_recovers {g : Graph} {last : Option UInt32} {xs : List FieldItem}
    {out : List UInt8} (h : memberBytes (·.field.slot) details last xs = .ok out)
    (hrefs : ∀ f ∈ xs, g.Has .fieldId f.field) (done : Array FieldItem) :
    (decodeFrom g (last.getD 0) done xs.length).Recovers out (done ++ (xs.map bare).toArray) := by
  induction xs generalizing last out done with
  | nil =>
    cases h
    rw [List.map_nil, Array.append_empty]
    exact Decoder.recovers_pure
  | cons f xs ih =>
    simp only [memberBytes, Except.bind_eq_ok_iff, Except.pure_eq_ok_iff] at h
    obtain ⟨delta, hdelta, detail, hdetail, tail, htail, rfl⟩ := h
    cases hdetail
    have hrest := ih htail (fun f' hf' => hrefs f' (List.mem_cons_of_mem _ hf'))
      (done.push (bare f))
    have hpush : done.push (bare f) ++ (xs.map bare).toArray =
        done ++ ((f :: xs).map bare).toArray := by simp
    rw [hpush] at hrest
    rw [List.append_assoc]
    exact Decoder.recovers_unsignedLeb.bind (Decoder.recovers_ofExcept_bind
      (nextIndex_of_memberDelta hdelta) (Decoder.recovers_unsignedLeb.bind
      (Decoder.recovers_ofExcept_bind (Graph.resolve_slot (hrefs f List.mem_cons_self)) hrest)))

theorem decodeList_recovers {g : Graph} {fields : Array FieldItem} {out : List UInt8}
    (h : listBytes fields = .ok out) (hsize : fields.size < 2 ^ 32)
    (hrefs : ∀ f ∈ fields, g.Has .fieldId f.field) :
    (decodeList g fields.size.toUInt32).Recovers out (fields.map bare) := by
  have hfrom := decodeFrom_recovers h (fun f hf => hrefs f (Array.mem_toList_iff.mp hf)) #[]
  rw [Array.length_toList] at hfrom
  unfold decodeList
  rw [toNat_toUInt32 hsize]
  simpa [← Array.toList_map] using hfrom

end FieldItem

/-- A native method has no body. -/
def MethodItem.WellFormed (m : MethodItem) : Prop :=
  m.isNative = true → m.code = none

theorem MethodItem.WellFormed.body? {m : MethodItem} (h : m.WellFormed) : m.body? = m.code := by
  unfold MethodItem.body?
  split
  · rename_i hnative
    exact (h hnative).symm
  · rfl

/-! ## Bodies -/

/-- The handler has clauses, and all of them have types but for the last one of a handler that
catches everything. -/
structure CatchHandler.WellFormed (h : CatchHandler) : Prop where
  types : ∀ clause ∈ h.typed, clause.type ≠ none
  last : h.catchesAll = true → ∃ address, h.clauses.toList = h.typed ++ [⟨none, address⟩]
  ne_nil : h.catchesAll = false → h.typed ≠ []

namespace CatchHandler

theorem typed_prefix (h : CatchHandler) : h.typed <+: h.clauses.toList := by
  unfold typed
  split
  · exact List.dropLast_prefix _
  · exact List.prefix_refl _

/-- A clause with a type takes two bytes at least. -/
theorem two_mul_length_le {clauses : List CatchClause} (h : ∀ c ∈ clauses, c.type ≠ none) :
    2 * clauses.length ≤ (clauses.flatMap clauseBytes).length := by
  induction clauses with
  | nil => simp
  | cons c rest ih =>
    obtain ⟨r, hr⟩ := Option.ne_none_iff_exists'.mp (h c List.mem_cons_self)
    have hrest := ih fun c' hc' => h c' (List.mem_cons_of_mem _ hc')
    have hindex := Leb128.encodeUnsigned_size_pos r.slot
    have haddress := Leb128.encodeUnsigned_size_pos c.address
    have hc : (clauseBytes c).length =
        (Leb128.encodeUnsigned r.slot).size + (Leb128.encodeUnsigned c.address).size := by
      simp [clauseBytes, hr]
    rw [List.flatMap_cons, List.length_append, List.length_cons, hc]
    omega

/-- A handler whose bytes fit into an image is one that a graph can have. -/
theorem WellFormed.proper {g : Graph} {h : CatchHandler} (hwell : h.WellFormed)
    (hrefs : ∀ c ∈ h.clauses, ∀ r ∈ c.type, g.Has .typeId r) (hsize : h.encode.size < 2 ^ 32) :
    h.Proper g := by
  obtain ⟨rest, hrest⟩ := h.typed_prefix
  have hlength : 2 * h.typed.length < 2 ^ 32 := by
    have htyped := two_mul_length_le hwell.types
    have hencode := congrArg List.length (toList_encode h)
    rw [Array.length_toList, List.length_append, ← hrest, List.flatMap_append,
      List.length_append] at hencode
    omega
  refine ⟨fun clause hclause => ?_, hwell.last, hwell.ne_nil, by omega, fun _ => by omega⟩
  obtain ⟨r, hr⟩ := Option.ne_none_iff_exists'.mp (hwell.types clause hclause)
  have hmem : clause ∈ h.clauses := by
    rw [← Array.mem_toList_iff, ← hrest]
    exact List.mem_append_left _ hclause
  exact ⟨r, hr, hrefs clause hmem r hr⟩

end CatchHandler

/-- The handlers are well formed and stand, if there are any, behind try ranges and without gaps. -/
structure CodeItem.WellFormed (code : CodeItem) : Prop where
  handlers : ∀ h ∈ code.handlers, h.WellFormed
  tries : code.tries = #[] → code.handlers = #[]
  contiguous : code.HandlersContiguous

namespace CodeItem

variable {code : CodeItem} {off : UInt32} {item : Stream}

/-- No handler is longer than the body. -/
theorem WellFormed.size_le (hwell : code.WellFormed) (h : code.encode off = .ok item) :
    ∀ x ∈ code.handlers, x.encode.size ≤ item.length := by
  intro x hx
  have hne : code.tries ≠ #[] := fun hempty => by
    rw [hwell.tries hempty] at hx
    simp at hx
  obtain ⟨handlers, hperm, hcontiguous⟩ := hwell.contiguous
  obtain ⟨-, -, ⟨hempty, -⟩ | ⟨-, -, -, tries, htries, -⟩⟩ := encode_eq_ok_iff.mp h
  · exact absurd hempty hne
  have hlength := @length_of_contiguous 0 code off item h hne tries htries handlers hperm hcontiguous
  have hmem : x.encode.size ∈ handlers.map fun h => h.encode.size :=
    List.mem_map_of_mem (hperm.mem_iff.mpr (Array.mem_toList_iff.mpr hx))
  have := List.le_sum_of_mem hmem
  omega

end CodeItem

/-! ## Entities -/

/-- The target of a handle is a field exactly if its kind accesses one. -/
def MethodHandle.WellFormed (x : MethodHandle) : Prop :=
  match x.target with
  | .field _ => x.kind.accessesField = true
  | .method _ => x.kind.accessesField = false

/-- What an entity has to be for an image to hold it as it is. -/
def Section.WellFormed : (s : Section) → s.Content → Prop
  | .stringData, x => ∀ b ∈ x.bytes, b ≠ 0
  | .methodHandle, x => x.WellFormed
  | .debugInfo, x => x.Complete
  | .codeItem, x => x.WellFormed
  | .classData, x => ∀ m ∈ x.allMethods, m.WellFormed
  | _, _ => True

end DexGraph
