import DexGraph.Proofs.Bytes.Recovers
import DexGraph.Proofs.Codec.Steady
import DexGraph.Proofs.Graph.Coherence
import DexGraph.Proofs.Graph.References

/-!
# Values are read back

A value that has been written is read again wherever its bytes stand, if the graph has the entries
that it names: `Value.decodeWithin_recovers`. A payload loses nothing by being narrow, since the
bytes that are left out are the ones that its reader puts back.
-/

namespace DexGraph

namespace LittleEndian

theorem capacity_pos (width : Nat) : 0 < capacity width := by
  induction width with
  | zero => decide
  | succ width ih =>
    rw [capacity]
    omega

theorem capacity_add (m n : Nat) : capacity (m + n) = capacity m * capacity n := by
  induction m with
  | zero => simp [capacity]
  | succ m ih => rw [Nat.succ_add, capacity, capacity, ih, Nat.mul_assoc]

theorem decode_replicate_zero_append (n : Nat) (bytes : List UInt8) :
    decode (List.replicate n 0 ++ bytes) = capacity n * decode bytes := by
  induction n with
  | zero => simp [capacity]
  | succ n ih =>
    rw [List.replicate_succ, List.cons_append, decode, ih, capacity, Nat.mul_assoc]
    simp

end LittleEndian

/-- The index of an entry that exists is resolved to the entry. -/
theorem Graph.resolve_slot {g : Graph} {s : Section} {r : Ref s} (h : g.Has s r) :
    g.resolve s r.slot = .ok r :=
  resolve_eq_ok_iff.mpr ⟨rfl, h⟩

namespace Value

open LittleEndian

/-! ## Widths -/

/-- The least width that passes a test is not above any other that does. -/
theorem leastWidth_spec {f : Nat → Bool} {n : Nat} (hn : f n = true) (hpos : 0 < n)
    (hle : n ≤ 8) : f (leastWidth f) = true ∧ 0 < leastWidth f ∧ leastWidth f ≤ n := by
  unfold leastWidth
  cases hfind : [1, 2, 3, 4, 5, 6, 7].find? f with
  | none =>
    have hnone : ∀ m ∈ [1, 2, 3, 4, 5, 6, 7], ¬ f m = true := by
      simpa only [List.find?_eq_none] using hfind
    have heq : n = 8 := by
      by_contra hne
      exact hnone n (by simp; omega) hn
    rw [Option.getD_none, ← heq]
    exact ⟨hn, hpos, Nat.le_refl n⟩
  | some w =>
    obtain ⟨hw, i, hi, rfl, hbefore⟩ := List.find?_eq_some_iff_getElem.mp hfind
    have hget (i : Nat) (hi : i < 7) : [1, 2, 3, 4, 5, 6, 7][i] = i + 1 := by
      revert i
      decide
    have hi : i < 7 := hi
    rw [Option.getD_some, hget i hi] at *
    refine ⟨hw, Nat.succ_pos i, Nat.le_of_not_lt fun hlt => ?_⟩
    have hfails := hbefore (n - 1) (by omega)
    rw [hget _ (by omega), Nat.sub_add_cancel hpos, hn] at hfails
    cases hfails

theorem fitsSigned_of_lt {v : Int} {width : Nat} {bound : Int} (hlow : -bound ≤ v)
    (hhigh : v < bound) (hbound : 2 * bound = capacity width) :
    fitsSigned v width = true := by
  simp only [fitsSigned, Bool.and_eq_true, decide_eq_true_eq]
  omega

theorem signedNumber_recovers {v : Int} {width : Nat} (hfits : fitsSigned v width = true)
    (hpos : 0 < width) (hle : width ≤ 8) :
    ∃ w, 0 < w ∧ w ≤ width ∧ (signedPayload v).length = w ∧
      (Decoder.signedNumber w).Recovers (signedPayload v) v := by
  obtain ⟨hw, hw0, hwle⟩ := leastWidth_spec hfits hpos hle
  refine ⟨_, hw0, hwle, length_encodeSigned .., ?_⟩
  set w := leastWidth (fitsSigned v)
  have hcap := capacity_pos w
  have hmod := Int.emod_nonneg v (Int.natCast_ne_zero.mpr hcap.ne')
  have hlt := Int.emod_lt_of_pos v (Int.natCast_pos.mpr hcap)
  have hsmall : (v % capacity w).toNat < capacity w := by omega
  have hread := (Decoder.recovers_number hsmall hw0.ne').map (g := signed w)
  have hv : signed w (v % capacity w).toNat = v := by
    simp only [fitsSigned, Bool.and_eq_true, decide_eq_true_eq] at hw
    unfold signed
    rcases Int.lt_or_le v 0 with hneg | hnonneg
    · have hwrap : v % capacity w = v + capacity w := by
        rw [← Int.add_emod_right, Int.emod_eq_of_lt (by omega) (by omega)]
      rw [hwrap, if_neg (by omega)]
      omega
    · rw [Int.emod_eq_of_lt hnonneg (by omega), if_pos (by omega)]
      omega
  rw [hv] at hread
  exact hread

theorem number_recovers {n width : Nat} (hn : n < capacity width) (hpos : 0 < width)
    (hle : width ≤ 8) : ∃ w, 0 < w ∧ w ≤ width ∧ (unsignedPayload n).length = w ∧
      (Decoder.number w).Recovers (unsignedPayload n) n := by
  obtain ⟨hw, hw0, hwle⟩ := leastWidth_spec (f := fun width => n < capacity width)
    (by simpa using hn) hpos hle
  exact ⟨_, hw0, hwle, length_encode .., Decoder.recovers_number (by simpa using hw) hw0.ne'⟩

/-- Zeros that are dropped are the ones that multiplying puts back. -/
theorem exists_dropLowZeros (bytes : List UInt8) (hne : bytes ≠ []) :
    ∃ n, bytes = List.replicate n 0 ++ dropLowZeros bytes ∧ dropLowZeros bytes ≠ [] := by
  induction bytes with
  | nil => exact absurd rfl hne
  | cons b rest ih =>
    by_cases hdrop : b = 0 ∧ rest ≠ []
    · obtain ⟨rfl, hrest⟩ := hdrop
      obtain ⟨n, hn, hkept⟩ := ih hrest
      obtain ⟨c, rest, rfl⟩ := List.exists_cons_of_ne_nil hrest
      exact ⟨n + 1, by rw [List.replicate_succ, List.cons_append, dropLowZeros, ← hn], by
        rwa [dropLowZeros]⟩
    · have hself : dropLowZeros (b :: rest) = b :: rest := by
        rcases rest with _ | ⟨c, rest⟩
        · simp [dropLowZeros]
        · have hb : b ≠ 0 := fun hb => hdrop ⟨hb, by simp⟩
          simp [dropLowZeros, hb]
      exact ⟨0, by rw [hself]; rfl, by simp [hself]⟩

theorem rightFilled_recovers {bits width : Nat} (hbits : bits < capacity width) (hpos : 0 < width) :
    ∃ w, 0 < w ∧ w ≤ width ∧ (rightFilledPayload width bits).length = w ∧
      ∃ n, (Decoder.number w).Recovers (rightFilledPayload width bits) n ∧
        n * capacity (width - w) = bits := by
  obtain ⟨k, hk, hne⟩ := exists_dropLowZeros (LittleEndian.encode width bits) (by
    rw [Ne, ← List.length_eq_zero_iff, length_encode]
    omega)
  have hlen := congrArg List.length hk
  rw [length_encode, List.length_append, List.length_replicate] at hlen
  have hdecode := congrArg LittleEndian.decode hk
  rw [decode_encode, Nat.mod_eq_of_lt hbits, decode_replicate_zero_append] at hdecode
  unfold rightFilledPayload
  have hkept := List.length_pos_iff.mpr hne
  refine ⟨_, hkept, by omega, rfl, LittleEndian.decode (dropLowZeros (LittleEndian.encode width bits)), ?_, ?_⟩
  · have hread := Decoder.recovers_number (decode_lt (dropLowZeros (LittleEndian.encode width bits))) hkept.ne'
    rwa [encode_decode] at hread
  · have hdropped : width - (dropLowZeros (LittleEndian.encode width bits)).length = k := by omega
    rw [hdropped, Nat.mul_comm]
    exact hdecode.symm

/-! ## Heads -/

theorem header_code (tag : ValueTag) {argument : Nat} (h : argument < 8) :
    header tag argument &&& 0x1F = tag.code ∧ header tag argument >>> 5 = argument.toUInt8 := by
  revert argument
  cases tag <;> decide

variable {g : Graph} {depth : Nat}

/-- The first byte says how to read what follows it. -/
theorem decodeWithin_headed {tag : ValueTag} {argument : Nat} (harg : argument < 8)
    (hmax : ∀ width ∈ tag.maxWidth?, argument + 1 ≤ width) {rest : List UInt8} {v : Value}
    (h : (decodePayload g (decodeWithin g depth) argument.toUInt8 tag).Recovers rest v) :
    (decodeWithin g (depth + 1)).Recovers (header tag argument :: rest) v := by
  obtain ⟨hcode, hargument⟩ := header_code tag harg
  have hword : argument.toUInt8.toNat = argument := by
    simp
    omega
  refine Decoder.recovers_position_bind fun start =>
    Decoder.Recovers.cons_bind Decoder.recovers_byte ?_
  dsimp only
  rw [hcode, hargument, ValueTag.ofCode?_code, hword]
  dsimp only
  have hfits : tag.maxWidth?.any (· < argument + 1) = false := by
    cases hw : tag.maxWidth? with
    | none => rfl
    | some width => simpa using hmax width hw
  rw [hfits, if_neg Bool.false_ne_true]
  exact h

theorem decodeWithin_sized {tag : ValueTag} {payload : List UInt8} {w width : Nat} (hw : 0 < w)
    (hle : w ≤ width) (hmax : tag.maxWidth? = some width) (hwidth : width ≤ 8)
    (hlen : payload.length = w) {v : Value}
    (h : ∀ argument : UInt8, argument.toNat + 1 = w →
      (decodePayload g (decodeWithin g depth) argument tag).Recovers payload v) :
    (decodeWithin g (depth + 1)).Recovers (sized tag payload) v := by
  refine decodeWithin_headed (by omega) (fun n hn => ?_) (h _ ?_)
  · obtain rfl := Option.some.inj (hmax.symm.trans hn)
    omega
  · simp
    omega

theorem decodeRef_recovers {s : Section} {r : Ref s} (hr : g.Has s r) :
    ∃ w, 0 < w ∧ w ≤ 4 ∧ (unsignedPayload r.pos).length = w ∧
      (decodeRef g s w).Recovers (unsignedPayload r.pos) r := by
  have hpos : r.pos < capacity 4 := r.slot.toNat_lt
  obtain ⟨w, hw, hle, hlen, hread⟩ := number_recovers hpos (by decide) (by decide)
  refine ⟨w, hw, hle, hlen, ?_⟩
  have hresolve : g.resolve s r.pos.toUInt32 = .ok r := by
    rw [Ref.pos, Nat.toUInt32_eq, UInt32.ofNat_toNat]
    exact Graph.resolve_slot hr
  have hbind := hread.bind (f := fun index => Decoder.ofExcept (g.resolve s index.toUInt32))
    (Decoder.recovers_ofExcept hresolve)
  rwa [List.append_nil] at hbind

theorem decodeIndex_recovers {s : Section} {r : Ref s} (hr : g.Has s r) :
    (decodeIndex g s).Recovers (encodeIndex r) r := by
  have hbind := Decoder.recovers_unsignedLeb.bind
    (f := fun index => Decoder.ofExcept (g.resolve s index))
    (Decoder.recovers_ofExcept (Graph.resolve_slot hr))
  rwa [List.append_nil] at hbind

/-! ## Values without values -/

section Leaves

variable {tag : ValueTag} {width : Nat} (hmax : tag.maxWidth? = some width) (hpos : 0 < width)
  (hwidth : width ≤ 8) {v : Value}
include hmax hwidth

/-- A value has a first byte, so the bound of the nesting is not zero. -/
theorem decodeWithin_leaf {payload : List UInt8} (hdepth : (sized tag payload).length ≤ depth)
    (h : ∃ w, 0 < w ∧ w ≤ width ∧ payload.length = w ∧ ∀ value (argument : UInt8),
      argument.toNat + 1 = w → (decodePayload g value argument tag).Recovers payload v) :
    (decodeWithin g depth).Recovers (sized tag payload) v := by
  obtain ⟨w, hw, hle, hlen, hread⟩ := h
  cases depth with
  | zero => simp [sized] at hdepth
  | succ depth => exact decodeWithin_sized hw hle hmax hwidth hlen (hread _)

include hpos

theorem decodeWithin_signed {n : Int} (hfits : fitsSigned n width = true) (make : Int → Value)
    (hmake : make n = v) (hpayload : ∀ value argument, decodePayload g value argument tag =
      do return make (← Decoder.signedNumber (argument.toNat + 1)))
    (hdepth : (sized tag (signedPayload n)).length ≤ depth) :
    (decodeWithin g depth).Recovers (sized tag (signedPayload n)) v := by
  obtain ⟨w, hw, hle, hlen, hread⟩ := signedNumber_recovers hfits hpos hwidth
  refine decodeWithin_leaf hmax hwidth hdepth ⟨w, hw, hle, hlen, fun value argument harg => ?_⟩
  rw [hpayload, harg, ← hmake]
  exact hread.map

theorem decodeWithin_unsigned {n : Nat} (hn : n < capacity width) (make : Nat → Value)
    (hmake : make n = v) (hpayload : ∀ value argument, decodePayload g value argument tag =
      do return make (← Decoder.number (argument.toNat + 1)))
    (hdepth : (sized tag (unsignedPayload n)).length ≤ depth) :
    (decodeWithin g depth).Recovers (sized tag (unsignedPayload n)) v := by
  obtain ⟨w, hw, hle, hlen, hread⟩ := number_recovers hn hpos hwidth
  refine decodeWithin_leaf hmax hwidth hdepth ⟨w, hw, hle, hlen, fun value argument harg => ?_⟩
  rw [hpayload, harg, ← hmake]
  exact hread.map

theorem decodeWithin_rightFilled {bits : Nat} (hbits : bits < capacity width) (make : Nat → Value)
    (hmake : make bits = v) (hpayload : ∀ value (argument : UInt8),
      decodePayload g value argument tag = do
        return make ((← Decoder.number (argument.toNat + 1)) *
          capacity (width - (argument.toNat + 1))))
    (hdepth : (sized tag (rightFilledPayload width bits)).length ≤ depth) :
    (decodeWithin g depth).Recovers (sized tag (rightFilledPayload width bits)) v := by
  obtain ⟨w, hw, hle, hlen, n, hread, hn⟩ := rightFilled_recovers hbits hpos
  refine decodeWithin_leaf hmax hwidth hdepth ⟨w, hw, hle, hlen, fun value argument harg => ?_⟩
  have hmap := hread.map (g := fun n => make (n * capacity (width - w)))
  rw [hn] at hmap
  rwa [hpayload, harg, ← hmake]

end Leaves

theorem decodeWithin_ref {tag : ValueTag} (hmax : tag.maxWidth? = some 4) {s : Section} {r : Ref s}
    (hr : g.Has s r) {make : Ref s → Value} (hpayload : ∀ value (argument : UInt8),
      decodePayload g value argument tag = do return make (← decodeRef g s (argument.toNat + 1)))
    (hdepth : (sized tag (unsignedPayload r.pos)).length ≤ depth) :
    (decodeWithin g depth).Recovers (sized tag (unsignedPayload r.pos)) (make r) := by
  obtain ⟨w, hw, hle, hlen, hread⟩ := decodeRef_recovers hr
  refine decodeWithin_leaf hmax (by decide) hdepth
    ⟨w, hw, hle, hlen, fun value argument harg => ?_⟩
  rw [hpayload, harg]
  exact hread.map

/-! ## Lists of values -/

theorem encodeCount_eq_ok_iff {n : Nat} {part : List UInt8} : encodeCount n = .ok part ↔
    ∃ count : UInt32, n = count.toNat ∧ part = (Leb128.encodeUnsigned count).toList := by
  simp only [encodeCount, Except.bind_eq_ok_iff, Except.pure_eq_ok_iff, toWord_eq_ok_iff]

theorem decodeArrayWith_recovers {value : Decoder Value} {values : List Value}
    {count body : List UInt8} (hcount : encodeCount values.length = .ok count)
    (hbody : value.RecoversEach body values) :
    (decodeArrayWith value).Recovers (count ++ body) values := by
  obtain ⟨n, hn, rfl⟩ := encodeCount_eq_ok_iff.mp hcount
  have hgather : (gather n.toNat value).Recovers body values.toArray := hbody.gather hn
  exact Decoder.recovers_unsignedLeb.bind hgather.map

/-- Reads an element of an annotation. -/
def decodeElement (g : Graph) (value : Decoder Value) : Decoder (Ref .stringId × Value) := do
  let name ← decodeIndex g .stringId
  return (name, ← value)

theorem decodeAnnotationWith_recovers {value : Decoder Value} {a : Annotation}
    {count body : List UInt8} (htype : g.Has .typeId a.type)
    (hcount : encodeCount a.elements.length = .ok count)
    (hbody : (decodeElement g value).RecoversEach body a.elements) :
    (decodeAnnotationWith g value).Recovers (encodeIndex a.type ++ (count ++ body)) a := by
  obtain ⟨n, hn, rfl⟩ := encodeCount_eq_ok_iff.mp hcount
  have hgather : (gather n.toNat (decodeElement g value)).Recovers body a.elements.toArray :=
    hbody.gather hn
  exact (decodeIndex_recovers htype).bind <| Decoder.recovers_unsignedLeb.bind <|
    hgather.map (g := fun elements : Array _ => (⟨a.type, elements.toList⟩ : Annotation))

/-! ## Values -/

mutual

/-- A value is read from its bytes, if the nesting is bounded by no less than their number. -/
theorem decodeWithin_recovers : (v : Value) → ∀ {part : List UInt8} {depth : Nat},
    v.encode = .ok part → v.AllRefs g.Has → part.length ≤ depth →
      (decodeWithin g depth).Recovers part v
  | .byte v, part, depth, h, hrefs, hdepth => by
    cases h
    exact decodeWithin_signed rfl (by decide) (by decide) (fitsSigned_of_lt v.le_toInt v.toInt_lt rfl)
      (fun n => .byte (Int8.ofInt n)) (by simp) (fun _ _ => rfl) hdepth
  | .short v, part, depth, h, hrefs, hdepth => by
    cases h
    exact decodeWithin_signed rfl (by decide) (by decide) (fitsSigned_of_lt v.le_toInt v.toInt_lt rfl)
      (fun n => .short (Int16.ofInt n)) (by simp) (fun _ _ => rfl) hdepth
  | .int v, part, depth, h, hrefs, hdepth => by
    cases h
    exact decodeWithin_signed rfl (by decide) (by decide) (fitsSigned_of_lt v.le_toInt v.toInt_lt rfl)
      (fun n => .int (Int32.ofInt n)) (by simp) (fun _ _ => rfl) hdepth
  | .long v, part, depth, h, hrefs, hdepth => by
    cases h
    exact decodeWithin_signed rfl (by decide) (by decide) (fitsSigned_of_lt v.le_toInt v.toInt_lt rfl)
      (fun n => .long (Int64.ofInt n)) (by simp) (fun _ _ => rfl) hdepth
  | .char v, part, depth, h, hrefs, hdepth => by
    cases h
    have hv : v.toNat < capacity 2 := v.toNat_lt
    exact decodeWithin_unsigned rfl (by decide) (by decide) hv (fun n => .char n.toUInt16) (by simp)
      (fun _ _ => rfl) hdepth
  | .float bits, part, depth, h, hrefs, hdepth => by
    cases h
    have hbits : bits.toNat < capacity 4 := bits.toNat_lt
    exact decodeWithin_rightFilled rfl (by decide) (by decide) hbits (fun n => .float n.toUInt32)
      (by simp) (fun _ _ => rfl) hdepth
  | .double bits, part, depth, h, hrefs, hdepth => by
    cases h
    have hbits : bits.toNat < capacity 8 := bits.toNat_lt
    exact decodeWithin_rightFilled rfl (by decide) (by decide) hbits (fun n => .double n.toUInt64)
      (by simp) (fun _ _ => rfl) hdepth
  | .methodType r, part, depth, h, hrefs, hdepth => by
    cases h
    exact decodeWithin_ref rfl hrefs (fun _ _ => rfl) hdepth
  | .methodHandle r, part, depth, h, hrefs, hdepth => by
    cases h
    exact decodeWithin_ref rfl hrefs (fun _ _ => rfl) hdepth
  | .string r, part, depth, h, hrefs, hdepth => by
    cases h
    exact decodeWithin_ref rfl hrefs (fun _ _ => rfl) hdepth
  | .type r, part, depth, h, hrefs, hdepth => by
    cases h
    exact decodeWithin_ref rfl hrefs (fun _ _ => rfl) hdepth
  | .field r, part, depth, h, hrefs, hdepth => by
    cases h
    exact decodeWithin_ref rfl hrefs (fun _ _ => rfl) hdepth
  | .method r, part, depth, h, hrefs, hdepth => by
    cases h
    exact decodeWithin_ref rfl hrefs (fun _ _ => rfl) hdepth
  | .enum r, part, depth, h, hrefs, hdepth => by
    cases h
    exact decodeWithin_ref rfl hrefs (fun _ _ => rfl) hdepth
  | .array values, part, depth, h, hrefs, hdepth => by
    simp only [encode, Except.bind_eq_ok_iff, Except.pure_eq_ok_iff] at h
    obtain ⟨count, hcount, body, hbody, rfl⟩ := h
    cases depth with
    | zero => simp at hdepth
    | succ depth =>
      have heach : (decodeWithin g depth).RecoversEach body values :=
        decodeEach_recovers values hbody hrefs (by
          simp at hdepth
          omega)
      exact decodeWithin_headed (by decide) (by simp [ValueTag.maxWidth?])
        (decodeArrayWith_recovers hcount heach).map
  | .annotated owner elements, part, depth, h, hrefs, hdepth => by
    simp only [encode, Except.bind_eq_ok_iff, Except.pure_eq_ok_iff] at h
    obtain ⟨count, hcount, body, hbody, rfl⟩ := h
    cases depth with
    | zero => simp at hdepth
    | succ depth =>
      have heach : (decodeElement g (decodeWithin g depth)).RecoversEach body elements :=
        decodeElements_recovers elements hbody hrefs.2 (by
          simp at hdepth
          omega)
      rw [List.append_assoc]
      exact decodeWithin_headed (by decide) (by simp [ValueTag.maxWidth?])
        (decodeAnnotationWith_recovers (a := ⟨owner, elements⟩) hrefs.1 hcount heach).map
  | .null, part, depth, h, hrefs, hdepth => by
    cases h
    cases depth with
    | zero => simp at hdepth
    | succ depth =>
      exact decodeWithin_headed (by decide) (by simp [ValueTag.maxWidth?]) Decoder.recovers_pure
  | .boolean v, part, depth, h, hrefs, hdepth => by
    cases h
    cases depth with
    | zero => simp at hdepth
    | succ depth =>
      refine decodeWithin_headed (v.toNat_lt.trans (by decide)) (by simp [ValueTag.maxWidth?]) ?_
      cases v <;> exact Decoder.recovers_pure

theorem decodeEach_recovers : (values : List Value) → ∀ {part : List UInt8} {depth : Nat},
    encodeEach values = .ok part → AllRefsEach g.Has values → part.length ≤ depth →
      (decodeWithin g depth).RecoversEach part values
  | [], part, depth, h, hrefs, hdepth => by
    cases h
    exact Decoder.recoversEach_nil
  | v :: rest, part, depth, h, hrefs, hdepth => by
    simp only [encodeEach, Except.bind_eq_ok_iff, Except.pure_eq_ok_iff] at h
    obtain ⟨head, hhead, tail, htail, rfl⟩ := h
    rw [List.length_append] at hdepth
    exact (decodeWithin_recovers v hhead hrefs.1 (by omega)).cons
      (decodeEach_recovers rest htail hrefs.2 (by omega))

theorem decodeElements_recovers : (elements : List (Ref .stringId × Value)) →
    ∀ {part : List UInt8} {depth : Nat}, encodeElements elements = .ok part →
      AllRefsElements g.Has elements → part.length ≤ depth →
        (decodeElement g (decodeWithin g depth)).RecoversEach part elements
  | [], part, depth, h, hrefs, hdepth => by
    cases h
    exact Decoder.recoversEach_nil
  | (name, v) :: rest, part, depth, h, hrefs, hdepth => by
    simp only [encodeElements, Except.bind_eq_ok_iff, Except.pure_eq_ok_iff] at h
    obtain ⟨head, hhead, tail, htail, rfl⟩ := h
    simp only [List.length_append] at hdepth
    have hvalue : (decodeWithin g depth).Recovers head v :=
      decodeWithin_recovers v hhead hrefs.2.1 (by omega)
    exact ((decodeIndex_recovers hrefs.1).bind hvalue.map).cons
      (decodeElements_recovers rest htail hrefs.2.2 (by omega))

end

/-- A value is read from its bytes. -/
theorem decode_recovers {v : Value} {part : List UInt8} (h : v.encode = .ok part)
    (hrefs : v.AllRefs g.Has) : (decode g).Recovers part v :=
  Decoder.recovers_remaining_bind fun _ hn => decodeWithin_recovers v h hrefs hn

/-- An array is read from its bytes. -/
theorem decodeArray_recovers {values : List Value} {part : List UInt8}
    (h : encodeArray values = .ok part) (hrefs : AllRefsEach g.Has values) :
    (decodeArray g).Recovers part values := by
  simp only [encodeArray, Except.bind_eq_ok_iff, Except.pure_eq_ok_iff] at h
  obtain ⟨count, hcount, body, hbody, rfl⟩ := h
  refine Decoder.recovers_remaining_bind fun n hn => ?_
  rw [List.length_append] at hn
  exact decodeArrayWith_recovers hcount (decodeEach_recovers values hbody hrefs (by omega))

end Value

/-- An annotation is read from its bytes. -/
theorem Annotation.decode_recovers {g : Graph} {a : Annotation} {part : List UInt8}
    (h : a.encode = .ok part) (htype : g.Has .typeId a.type)
    (hrefs : Value.AllRefsElements g.Has a.elements) : ( Annotation.decode g).Recovers part a := by
  simp only [ Annotation.encode, Except.bind_eq_ok_iff, Except.pure_eq_ok_iff] at h
  obtain ⟨count, hcount, body, hbody, rfl⟩ := h
  refine Decoder.recovers_remaining_bind fun n hn => ?_
  simp only [List.length_append] at hn
  rw [List.append_assoc]
  exact Value.decodeAnnotationWith_recovers htype hcount
    (Value.decodeElements_recovers a.elements hbody hrefs (by omega))

/-! ## Values between other bytes -/

namespace Graph

/-- The values, arrays and annotations that name entries of a graph are read back from their bytes,
whatever stands before and behind these, and reading stops where they end. -/
theorem decode_encoded_values (g : Graph) (before rest : List UInt8) :
    (∀ v part, v.AllRefs g.Has → Value.encode v = .ok part →
      (Value.decode g).runAt (before ++ part ++ rest).toArray before.length =
        .ok (v, before.length + part.length)) ∧
    (∀ values part, Value.AllRefsEach g.Has values → Value.encodeArray values = .ok part →
      (Value.decodeArray g).runAt (before ++ part ++ rest).toArray before.length =
        .ok (values, before.length + part.length)) ∧
    ∀ (a : Annotation) part, g.Has .typeId a.type → Value.AllRefsElements g.Has a.elements →
      a.encode = .ok part →
      ( Annotation.decode g).runAt (before ++ part ++ rest).toArray before.length =
        .ok (a, before.length + part.length) := by
  refine ⟨fun v part hrefs h => ?_, fun values part hrefs h => ?_, fun a part htype hrefs h => ?_⟩
  · exact (Value.decode_recovers h hrefs).runAt before rest
  · exact (Value.decodeArray_recovers h hrefs).runAt before rest
  · exact ( Annotation.decode_recovers h htype hrefs).runAt before rest

/-- A graph with an entry of each of the tables that values name. -/
def nameable : Graph :=
  { Graph.empty with
    stringDatas := .ofItems [⟨3, #[0x4C, 0x41, 0x3B]⟩]
    stringIds := .ofItems [⟨⟨0⟩⟩]
    typeIds := .ofItems [⟨⟨0⟩⟩]
    protoIds := .ofItems [⟨⟨0⟩, ⟨0⟩, none⟩]
    fieldIds := .ofItems [⟨⟨0⟩, ⟨0⟩, ⟨0⟩⟩]
    methodIds := .ofItems [⟨⟨0⟩, ⟨0⟩, ⟨0⟩⟩]
    methodHandles := .ofItems [⟨.staticGet, .field ⟨0⟩⟩] }

/-- An annotation in which arrays and annotations are nested, with a method handle and with NaNs. -/
def nestedNote : Annotation :=
  ⟨⟨0⟩, [(⟨0⟩, .array [.methodHandle ⟨0⟩, .double 0x7FF8000000000001, .float 0xFFC00000,
    .annotated ⟨0⟩ [(⟨0⟩, .long (-129)), (⟨0⟩, .array [.enum ⟨0⟩, .null])]]), (⟨0⟩, .boolean true)]⟩

/-- The nested annotation is read back behind one byte and in front of another: by itself, as a
value, and as the element of an array. -/
theorem decode_nestedNote : nameable.Has .typeId nestedNote.type ∧
    Value.AllRefsElements nameable.Has nestedNote.elements ∧
    (∃ part, nestedNote.encode = .ok part ∧
      ( Annotation.decode nameable).runAt ([0xFF] ++ part ++ [0x80]).toArray 1 =
        .ok (nestedNote, 1 + part.length)) ∧
    (∃ part, Value.encode (.annotated nestedNote.type nestedNote.elements) = .ok part ∧
      (Value.decode nameable).runAt ([0xFF] ++ part ++ [0x80]).toArray 1 =
        .ok (.annotated nestedNote.type nestedNote.elements, 1 + part.length)) ∧
    ∃ part, Value.encodeArray [.annotated nestedNote.type nestedNote.elements] =
        .ok part ∧
      (Value.decodeArray nameable).runAt ([0xFF] ++ part ++ [0x80]).toArray 1 =
        .ok ([.annotated nestedNote.type nestedNote.elements], 1 + part.length) := by
  have htype : nameable.Has .typeId nestedNote.type := by decide
  have hrefs : Value.AllRefsElements nameable.Has nestedNote.elements := by
    simp only [nestedNote, Value.AllRefsElements, Value.AllRefs, Value.AllRefsEach]
    decide
  obtain ⟨hvalue, harray, hannotation⟩ := nameable.decode_encoded_values [0xFF] [0x80]
  exact ⟨htype, hrefs, ⟨_, rfl, hannotation _ _ htype hrefs rfl⟩,
    ⟨_, rfl, hvalue _ _ ⟨htype, hrefs⟩ rfl⟩, _, rfl, harray _ _ ⟨⟨htype, hrefs⟩, trivial⟩ rfl⟩

end Graph

end DexGraph
