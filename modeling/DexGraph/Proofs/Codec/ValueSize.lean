import DexGraph.Proofs.Assembly.Ensures
import DexGraph.Proofs.Codec.ValueRecovery

/-!
# The size of values

A value may be stored in more bytes than it needs: with a wide payload, with padded numbers, or with
an argument that means nothing. `Decoder.Covers` says that what a decoder reads has a form that is
no longer than the bytes from which it was read. It is shown of the decoder of values by induction
on the nesting (`Value.decodeWithin_covers`), after it has been shown of every kind of payload that
no reader accepts a narrower one. With the reading of what has been written this makes
`Decoder.Compacts`.
-/

namespace DexGraph

namespace Decoder

variable {α : Type} {d : Decoder α} {encode : α → Except Error (List UInt8)}

/-- Whatever is read has a form, and no shorter one is read. -/
def Covers (d : Decoder α) (encode : α → Except Error (List UInt8)) : Prop :=
  ∀ data p a q, d.Reads data p a q → ∃ part, encode a = .ok part ∧ p + part.length ≤ q

/-- Whatever is read has a form that is read again, and that is no longer than the bytes from which
it was read. -/
def Compacts (d : Decoder α) (encode : α → Except Error (List UInt8)) : Prop :=
  ∀ data p a q, d.Reads data p a q →
    ∃ part, encode a = .ok part ∧ p + part.length ≤ q ∧ d.Recovers part a

theorem Covers.compacts {P : α → Prop} (h : d.Covers encode) (hd : d.Ensures P)
    (hrecovers : ∀ a part, encode a = .ok part → P a → d.Recovers part a) : d.Compacts encode := by
  intro data p a q hread
  obtain ⟨part, hpart, hle⟩ := h data p a q hread
  exact ⟨part, hpart, hle, hrecovers a part hpart (hd data p a q hread)⟩

/-- The number of bytes that are left says nothing about what is read. -/
theorem covers_remaining_bind {f : Nat → Decoder α} (hf : ∀ n, (f n).Covers encode) :
    (remaining >>= f).Covers encode := by
  intro data p a q h
  obtain ⟨n, _, hn, ha⟩ := reads_bind_iff.mp h
  obtain ⟨-, rfl⟩ := reads_remaining_iff.mp hn
  exact hf n data _ a q ha

/-- What is read has a form. -/
theorem Covers.ensures (h : d.Covers encode) : d.Ensures fun a => ∃ part, encode a = .ok part :=
  fun data p a q hread => (h data p a q hread).imp fun _ hpart => hpart.1

end Decoder

namespace LittleEndian

theorem capacity_mono {m n : Nat} (h : m ≤ n) : capacity m ≤ capacity n := by
  obtain ⟨k, rfl⟩ := Nat.exists_eq_add_of_le h
  rw [capacity_add]
  exact Nat.le_mul_of_pos_right _ (capacity_pos k)

/-- The bytes of a multiple of a capacity begin with zeros. -/
theorem encode_capacity_mul (m n x : Nat) :
    encode (m + n) (capacity m * x) = List.replicate m 0 ++ encode n x := by
  induction m with
  | zero => simp [capacity]
  | succ m ih =>
    have hlow : (256 * capacity m * x).toUInt8 = 0 := by
      apply UInt8.toNat_inj.mp
      rw [Nat.toUInt8_eq, UInt8.toNat_ofNat', Nat.mul_assoc, Nat.mul_mod_right]
      rfl
    have hdiv : 256 * capacity m * x / 256 = capacity m * x := by
      rw [Nat.mul_assoc, Nat.mul_div_cancel_left _ (by decide)]
    rw [Nat.succ_add, capacity, encode, hlow, hdiv, ih, List.replicate_succ, List.cons_append]

end LittleEndian

namespace Value

open LittleEndian

/-! ## Payloads -/

/-- A number that is read from its two's complement fits the bytes from which it is read. -/
theorem fitsSigned_signed {w n : Nat} (hn : n < capacity w) : fitsSigned (signed w n) w = true := by
  unfold signed
  split
  all_goals
    simp only [fitsSigned, Bool.and_eq_true, decide_eq_true_eq]
    omega

theorem fitsSigned_mono {v : Int} {m n : Nat} (h : m ≤ n) (hv : fitsSigned v m = true) :
    fitsSigned v n = true := by
  have hle := capacity_mono h
  simp only [fitsSigned, Bool.and_eq_true, decide_eq_true_eq] at hv ⊢
  omega

theorem bounds_of_fitsSigned {v : Int} {width : Nat} (bound : Int)
    (hv : fitsSigned v width = true) (hbound : 2 * bound = capacity width) :
    -bound ≤ v ∧ v < bound := by
  simp only [fitsSigned, Bool.and_eq_true, decide_eq_true_eq] at hv
  omega

theorem length_signedPayload_le {v : Int} {w : Nat} (hv : fitsSigned v w = true) (hpos : 0 < w)
    (hle : w ≤ 8) : (signedPayload v).length ≤ w := by
  rw [signedPayload, length_encodeSigned]
  exact (leastWidth_spec hv hpos hle).2.2

theorem length_unsignedPayload_le {n w : Nat} (hn : n < capacity w) (hpos : 0 < w) (hle : w ≤ 8) :
    (unsignedPayload n).length ≤ w := by
  rw [unsignedPayload, length_encode]
  exact (leastWidth_spec (f := fun width => n < capacity width) (by simpa using hn) hpos hle).2.2

theorem dropLowZeros_replicate_append (n : Nat) {rest : List UInt8} (hne : rest ≠ []) :
    dropLowZeros (List.replicate n 0 ++ rest) = dropLowZeros rest := by
  induction n with
  | zero => rfl
  | succ n ih =>
    obtain ⟨b, tail, htail⟩ := List.exists_cons_of_ne_nil (List.append_ne_nil_of_right_ne_nil
      (List.replicate n (0 : UInt8)) hne)
    rw [List.replicate_succ, List.cons_append, htail, dropLowZeros, ← htail, ih]

theorem mul_capacity_lt {width w n : Nat} (hn : n < capacity w) (hle : w ≤ width) :
    n * capacity (width - w) < capacity width := by
  have hwidth : capacity width = capacity w * capacity (width - w) := by
    rw [← capacity_add, Nat.add_sub_cancel' hle]
  rw [hwidth]
  exact Nat.mul_lt_mul_of_pos_right hn (capacity_pos _)

/-- The zeros that reading puts below a narrow payload are dropped again. -/
theorem length_rightFilledPayload_le {width w n : Nat} (hpos : 0 < w) (hle : w ≤ width) :
    (rightFilledPayload width (n * capacity (width - w))).length ≤ w := by
  have hne : LittleEndian.encode w n ≠ [] := by
    rw [Ne, ← List.length_eq_zero_iff, length_encode]
    omega
  have hwidth : width = width - w + w := by omega
  have hbytes : LittleEndian.encode width (n * capacity (width - w)) =
      List.replicate (width - w) 0 ++ LittleEndian.encode w n := by
    conv => lhs; rw [hwidth]
    rw [Nat.add_sub_cancel, Nat.mul_comm, encode_capacity_mul]
  obtain ⟨k, hk, -⟩ := exists_dropLowZeros _ hne
  have hlen := congrArg List.length hk
  rw [length_encode, List.length_append] at hlen
  rw [rightFilledPayload, hbytes, dropLowZeros_replicate_append _ hne]
  omega

/-! ## Values without values -/

section Leaves

variable {g : Graph} {data : Bytes} {p q w : Nat} {v : Value} {tag : ValueTag}

/-- The form of a value is its payload and one byte before it. -/
theorem covers_sized {payload : List UInt8} (hencode : v.encode = .ok (sized tag payload))
    (hlen : payload.length ≤ w) :
    ∃ part, v.encode = .ok part ∧ p + part.length ≤ p + w + 1 := by
  refine ⟨_, hencode, ?_⟩
  rw [sized, List.length_cons]
  omega

theorem lt_of_reads_number {n : Nat} (h : (Decoder.number w).Reads data p n q) :
    n < capacity w ∧ q = p + w := by
  obtain ⟨part, rfl, -, -, rfl, rfl⟩ := Decoder.reads_number_iff.mp h
  exact ⟨decode_lt part, rfl⟩

theorem covers_number (tag : ValueTag) (make : Nat → Value)
    (hencode : ∀ n < capacity w, ∃ payload, (make n).encode = .ok (sized tag payload) ∧
      payload.length ≤ w)
    (h : (do return make (← Decoder.number w) : Decoder Value).Reads data p v q) :
    ∃ part, v.encode = .ok part ∧ p + part.length ≤ q + 1 := by
  obtain ⟨n, _, hn, hpure⟩ := Decoder.reads_bind_iff.mp h
  obtain ⟨rfl, rfl⟩ := Decoder.reads_pure_iff.mp hpure
  obtain ⟨hlt, rfl⟩ := lt_of_reads_number hn
  obtain ⟨payload, hpayload, hlen⟩ := hencode n hlt
  exact covers_sized hpayload hlen

variable (hpos : 0 < w)
include hpos

theorem covers_signed (tag : ValueTag) {width : Nat} (hle : w ≤ width) (hwidth : width ≤ 8)
    (make : Int → Value) (hencode : ∀ n, fitsSigned n width = true →
      (make n).encode = .ok (sized tag (signedPayload n)))
    (h : (do return make (← Decoder.signedNumber w) : Decoder Value).Reads data p v q) :
    ∃ part, v.encode = .ok part ∧ p + part.length ≤ q + 1 := by
  obtain ⟨_, _, hsigned, hpure⟩ := Decoder.reads_bind_iff.mp h
  obtain ⟨rfl, rfl⟩ := Decoder.reads_pure_iff.mp hpure
  obtain ⟨n, _, hn, hpure⟩ := Decoder.reads_bind_iff.mp hsigned
  obtain ⟨rfl, rfl⟩ := Decoder.reads_pure_iff.mp hpure
  obtain ⟨hlt, rfl⟩ := lt_of_reads_number hn
  have hfits := fitsSigned_signed hlt
  exact covers_sized (hencode _ (fitsSigned_mono hle hfits))
    (length_signedPayload_le hfits hpos (hle.trans hwidth))

/-- An index that is read in up to four bytes is the position of what it names. -/
theorem covers_ref (tag : ValueTag) (hle : w ≤ 4) {s : Section} {make : Ref s → Value}
    (hencode : ∀ r, (make r).encode = .ok (sized tag (unsignedPayload r.pos)))
    (h : (do return make (← decodeRef g s w) : Decoder Value).Reads data p v q) :
    ∃ part, v.encode = .ok part ∧ p + part.length ≤ q + 1 := by
  obtain ⟨r, _, hr, hpure⟩ := Decoder.reads_bind_iff.mp h
  obtain ⟨rfl, rfl⟩ := Decoder.reads_pure_iff.mp hpure
  obtain ⟨n, _, hn, hindex⟩ := Decoder.reads_bind_iff.mp hr
  obtain ⟨hresolve, rfl⟩ := Decoder.reads_ofExcept_iff.mp hindex
  obtain ⟨hlt, rfl⟩ := lt_of_reads_number hn
  have hword : n < 2 ^ 32 := hlt.trans_le (capacity_mono hle)
  have hslot : r.pos = n := by
    rw [(Graph.resolve_eq_ok_iff.mp hresolve).1, Ref.pos, toNat_toUInt32 hword]
  refine covers_sized (hencode r) ?_
  rw [hslot]
  exact length_unsignedPayload_le hlt hpos (hle.trans (by decide))

end Leaves

/-! ## Lists of values -/

section Lists

variable {g : Graph} {value : Decoder Value} {data : Bytes} {p q : Nat}

/-- A number takes no fewer bytes than its shortest form, and so does the size of a list. -/
theorem covers_count {n : UInt32} (h : Decoder.unsignedLeb.Reads data p n q) :
    ∃ part, encodeCount n.toNat = .ok part ∧ p + part.length ≤ q :=
  ⟨_, encodeCount_eq_ok_iff.mpr ⟨n, rfl, rfl⟩, Decoder.le_of_unsignedLeb h⟩

theorem le_of_decodeIndex {s : Section} {r : Ref s} (h : (decodeIndex g s).Reads data p r q) :
    p + (encodeIndex r).length ≤ q := by
  obtain ⟨index, _, hindex, hentry⟩ := Decoder.reads_bind_iff.mp h
  obtain ⟨hresolve, rfl⟩ := Decoder.reads_ofExcept_iff.mp hentry
  rw [encodeIndex, (Graph.resolve_eq_ok_iff.mp hresolve).1]
  exact Decoder.le_of_unsignedLeb hindex

theorem covers_each (hvalue : value.Covers Value.encode) {values : List Value}
    (h : Decoder.ReadsEach value data p values q) :
    ∃ part, encodeEach values = .ok part ∧ p + part.length ≤ q := by
  induction values generalizing p with
  | nil => exact ⟨[], rfl, Nat.le_of_eq h.symm⟩
  | cons v rest ih =>
    obtain ⟨r, hv, hrest⟩ := h
    obtain ⟨head, hhead, hle⟩ := hvalue data p v r hv
    obtain ⟨tail, htail, hle'⟩ := ih hrest
    refine ⟨head ++ tail, by rw [encodeEach, hhead, htail]; rfl, ?_⟩
    rw [List.length_append]
    omega

theorem covers_elements (hvalue : value.Covers Value.encode)
    {elements : List (Ref .stringId × Value)}
    (h : Decoder.ReadsEach (decodeElement g value) data p elements q) :
    ∃ part, encodeElements elements = .ok part ∧ p + part.length ≤ q := by
  induction elements generalizing p with
  | nil => exact ⟨[], rfl, Nat.le_of_eq h.symm⟩
  | cons x rest ih =>
    obtain ⟨r, hx, hrest⟩ := h
    obtain ⟨name, _, hname, hx⟩ := Decoder.reads_bind_iff.mp hx
    obtain ⟨v, _, hv, hpure⟩ := Decoder.reads_bind_iff.mp hx
    obtain ⟨rfl, rfl⟩ := Decoder.reads_pure_iff.mp hpure
    have hindex := le_of_decodeIndex hname
    obtain ⟨head, hhead, hle⟩ := hvalue data _ v _ hv
    obtain ⟨tail, htail, hle'⟩ := ih hrest
    refine ⟨encodeIndex name ++ head ++ tail, by rw [encodeElements, hhead, htail]; rfl, ?_⟩
    rw [List.length_append, List.length_append]
    omega

theorem decodeArrayWith_covers (hvalue : value.Covers Value.encode) :
    (decodeArrayWith value).Covers encodeArray := by
  intro data p values q h
  obtain ⟨n, _, hn, h⟩ := Decoder.reads_bind_iff.mp h
  obtain ⟨xs, _, hxs, hpure⟩ := Decoder.reads_bind_iff.mp h
  obtain ⟨rfl, rfl⟩ := Decoder.reads_pure_iff.mp hpure
  obtain ⟨hsize, hxs⟩ := Decoder.reads_gather_iff.mp hxs
  obtain ⟨count, hcount, hle⟩ := covers_count hn
  obtain ⟨body, hbody, hle'⟩ := covers_each hvalue hxs
  rw [← hsize, ← Array.length_toList] at hcount
  refine ⟨count ++ body, by rw [encodeArray, hcount, hbody]; rfl, ?_⟩
  rw [List.length_append]
  omega

theorem decodeAnnotationWith_covers (hvalue : value.Covers Value.encode) :
    (decodeAnnotationWith g value).Covers Annotation.encode := by
  intro data p a q h
  obtain ⟨owner, _, howner, h⟩ := Decoder.reads_bind_iff.mp h
  obtain ⟨n, _, hn, h⟩ := Decoder.reads_bind_iff.mp h
  obtain ⟨xs, _, hxs, hpure⟩ := Decoder.reads_bind_iff.mp h
  obtain ⟨rfl, rfl⟩ := Decoder.reads_pure_iff.mp hpure
  obtain ⟨hsize, hxs⟩ := Decoder.reads_gather_iff.mp hxs
  have hindex := le_of_decodeIndex howner
  obtain ⟨count, hcount, hle⟩ := covers_count hn
  obtain ⟨body, hbody, hle'⟩ := covers_elements hvalue hxs
  rw [← hsize, ← Array.length_toList] at hcount
  refine ⟨encodeIndex owner ++ count ++ body, by
    rw [ Annotation.encode, hcount, hbody]; rfl, ?_⟩
  rw [List.length_append, List.length_append]
  omega

end Lists

/-! ## Values -/

theorem encode_array (values : List Value) :
    encode (.array values) = do return header .array 0 :: (← encodeArray values) := by
  rw [encode, encodeArray]
  cases encodeCount values.length with
  | error e => rfl
  | ok count => cases encodeEach values <;> rfl

theorem encode_annotated (owner : Ref .typeId) (elements : List (Ref .stringId × Value)) :
    encode (.annotated owner elements) = do
      return header .annotated 0 :: (← Annotation.encode ⟨owner, elements⟩) := by
  rw [encode, Annotation.encode]
  cases encodeCount elements.length with
  | error e => rfl
  | ok count => cases encodeElements elements <;> rfl

section Values

variable {g : Graph} {value : Decoder Value}

/-- The form of a value takes one byte before what the payload was read from. -/
theorem decodePayload_covers (hvalue : value.Covers Value.encode) {argument : UInt8}
    {tag : ValueTag} (hwidth : ∀ width ∈ tag.maxWidth?, argument.toNat + 1 ≤ width) {data : Bytes}
    {p : Nat} {v : Value} {q : Nat} (h : (decodePayload g value argument tag).Reads data p v q) :
    ∃ part, v.encode = .ok part ∧ p + part.length ≤ q + 1 := by
  have hpos := Nat.succ_pos argument.toNat
  cases tag with
  | byte =>
    refine covers_signed hpos .byte (hwidth 1 rfl) (by decide) (fun n => .byte (Int8.ofInt n))
      (fun n hn => ?_) h
    obtain ⟨hlow, hhigh⟩ := bounds_of_fitsSigned (2 ^ 7) hn rfl
    rw [encode, Int8.toInt_ofInt_of_le hlow hhigh]
  | short =>
    refine covers_signed hpos .short (hwidth 2 rfl) (by decide) (fun n => .short (Int16.ofInt n))
      (fun n hn => ?_) h
    obtain ⟨hlow, hhigh⟩ := bounds_of_fitsSigned (2 ^ 15) hn rfl
    rw [encode, Int16.toInt_ofInt_of_le hlow hhigh]
  | int =>
    refine covers_signed hpos .int (hwidth 4 rfl) (by decide) (fun n => .int (Int32.ofInt n))
      (fun n hn => ?_) h
    obtain ⟨hlow, hhigh⟩ := bounds_of_fitsSigned (2 ^ 31) hn rfl
    rw [encode, Int32.toInt_ofInt_of_le hlow hhigh]
  | long =>
    refine covers_signed hpos .long (hwidth 8 rfl) (by decide) (fun n => .long (Int64.ofInt n))
      (fun n hn => ?_) h
    obtain ⟨hlow, hhigh⟩ := bounds_of_fitsSigned (2 ^ 63) hn rfl
    rw [encode, Int64.toInt_ofInt_of_le hlow hhigh]
  | char =>
    have hle : argument.toNat + 1 ≤ 2 := hwidth 2 rfl
    refine covers_number .char (fun n => .char n.toUInt16) (fun n hn => ?_) h
    have hword : n < 2 ^ 16 := hn.trans_le (capacity_mono hle)
    rw [encode, Nat.toUInt16_eq, UInt16.toNat_ofNat_of_lt' hword]
    exact ⟨_, rfl, length_unsignedPayload_le hn hpos (hle.trans (by decide))⟩
  | float =>
    have hle : argument.toNat + 1 ≤ 4 := hwidth 4 rfl
    refine covers_number .float
      (fun n => .float (n * capacity (4 - (argument.toNat + 1))).toUInt32)
      (fun n hn => ?_) h
    rw [encode, Nat.toUInt32_eq, UInt32.toNat_ofNat_of_lt' (mul_capacity_lt hn hle)]
    exact ⟨_, rfl, length_rightFilledPayload_le hpos hle⟩
  | double =>
    have hle : argument.toNat + 1 ≤ 8 := hwidth 8 rfl
    refine covers_number .double
      (fun n => .double (n * capacity (8 - (argument.toNat + 1))).toUInt64)
      (fun n hn => ?_) h
    rw [encode, Nat.toUInt64_eq, UInt64.toNat_ofNat_of_lt' (mul_capacity_lt hn hle)]
    exact ⟨_, rfl, length_rightFilledPayload_le hpos hle⟩
  | methodType | methodHandle | string | type | field | method | enum =>
    exact covers_ref hpos _ (hwidth 4 rfl) (fun _ => by rw [encode]) h
  | array =>
    obtain ⟨values, _, hvalues, hpure⟩ := Decoder.reads_bind_iff.mp h
    obtain ⟨rfl, rfl⟩ := Decoder.reads_pure_iff.mp hpure
    obtain ⟨part, hpart, hle⟩ := decodeArrayWith_covers hvalue _ _ _ _ hvalues
    exact ⟨header .array 0 :: part, by rw [encode_array, hpart]; rfl, Nat.succ_le_succ hle⟩
  | annotated =>
    obtain ⟨a, _, ha, hpure⟩ := Decoder.reads_bind_iff.mp h
    obtain ⟨rfl, rfl⟩ := Decoder.reads_pure_iff.mp hpure
    obtain ⟨part, hpart, hle⟩ := decodeAnnotationWith_covers hvalue _ _ _ _ ha
    exact ⟨header .annotated 0 :: part, by rw [encode_annotated, hpart]; rfl, Nat.succ_le_succ hle⟩
  | null | boolean =>
    obtain ⟨rfl, rfl⟩ := Decoder.reads_pure_iff.mp h
    exact ⟨_, rfl, Nat.le_refl _⟩

theorem decodeWithin_covers (depth : Nat) : (decodeWithin g depth).Covers Value.encode := by
  induction depth with
  | zero => exact fun _ _ _ _ h => absurd h Decoder.not_reads_fail
  | succ depth ih =>
    intro data p v q h
    obtain ⟨start, _, hstart, hrest⟩ := Decoder.reads_bind_iff.mp h
    obtain ⟨-, rfl⟩ := Decoder.reads_position_iff.mp hstart
    obtain ⟨first, _, hfirst, hpayload⟩ := Decoder.reads_bind_iff.mp hrest
    obtain ⟨-, rfl⟩ := Decoder.reads_byte_iff.mp hfirst
    dsimp only at hpayload
    cases htag : ValueTag.ofCode? (first &&& 0x1F) with
    | none =>
      rw [htag] at hpayload
      exact absurd hpayload Decoder.not_reads_fail
    | some tag =>
      rw [htag] at hpayload
      dsimp only at hpayload
      split at hpayload
      · obtain ⟨_, _, hfail, -⟩ := Decoder.reads_bind_iff.mp hpayload
        exact absurd hfail Decoder.not_reads_fail
      · rename_i hfits
        have hwidth : ∀ width ∈ tag.maxWidth?, (first >>> 5).toNat + 1 ≤ width := by
          intro width hmem
          rw [Option.mem_def] at hmem
          simpa [hmem] using hfits
        obtain ⟨part, hpart, hle⟩ := decodePayload_covers ih hwidth hpayload
        exact ⟨part, hpart, by omega⟩

theorem decode_covers : (decode g).Covers Value.encode :=
  Decoder.covers_remaining_bind decodeWithin_covers

theorem decodeArray_covers : (decodeArray g).Covers encodeArray :=
  Decoder.covers_remaining_bind fun n => decodeArrayWith_covers (decodeWithin_covers n)

/-- A value is stored again in no more bytes than those from which it was read. -/
theorem decode_compacts : (decode g).Compacts Value.encode :=
  decode_covers.compacts (Decoder.ensures_bind decodeWithin_ensures) fun _ _ h hrefs =>
    decode_recovers h hrefs

theorem decodeArray_compacts : (decodeArray g).Compacts encodeArray :=
  decodeArray_covers.compacts decodeArray_ensures fun _ _ h hrefs => decodeArray_recovers h hrefs

end Values

end Value

namespace Annotation

variable {g : Graph}

theorem decode_covers : ( Annotation.decode g).Covers Annotation.encode :=
  Decoder.covers_remaining_bind fun n =>
    Value.decodeAnnotationWith_covers (Value.decodeWithin_covers n)

theorem decode_compacts : ( Annotation.decode g).Compacts Annotation.encode :=
  decode_covers.compacts decode_ensures fun _ _ h hrefs => decode_recovers h hrefs.1 hrefs.2

end Annotation

end DexGraph
