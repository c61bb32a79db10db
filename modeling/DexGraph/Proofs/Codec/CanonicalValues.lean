import DexGraph.Proofs.Bytes.ShortestForm
import DexGraph.Proofs.Codec.ValueSize

/-!
# Canonical values

A value may be stored with a payload that is wider than it has to be, with padded numbers, and with
an argument that means nothing. `Value.canonicalWithin` walks over a value and accepts it only if it
is stored in none of these ways. What it accepts are the bytes that are written for the value
(`Value.decodeWithin_keeps`), by induction on the nesting: for every kind of payload there is one
width only in which no byte can be left out.
-/

namespace DexGraph

namespace Value

open LittleEndian

/-! ## Walking over canonical values -/

/-- A payload of the given width that gives a number of which `narrower` says whether it could do
with a byte less. -/
def canonicalNumber (width : Nat) (narrower : Nat → Bool) : Decoder Unit := do
  let n ← Decoder.number width
  Decoder.require (width = 1 ∨ narrower n = false)

/-- A counted list of values. -/
def canonicalArrayWith (value : Decoder Unit) : Decoder Unit := do
  let count ← Decoder.shortestLeb
  times count.toNat value

/-- The type and the elements of an annotation. -/
def canonicalAnnotationWith (value : Decoder Unit) : Decoder Unit := do
  let _ ← Decoder.shortestLeb
  let count ← Decoder.shortestLeb
  times count.toNat do
    let _ ← Decoder.shortestLeb
    value

/-- What follows the first byte of a value. The highest byte of a number may not repeat its sign or
be zero, and the lowest byte of a floating-point number may not be zero. -/
def canonicalPayload (value : Decoder Unit) (argument : UInt8) : ValueTag → Decoder Unit :=
  let width := argument.toNat + 1
  fun
  | .byte | .short | .int | .long =>
    canonicalNumber width fun n => fitsSigned (signed width n) (width - 1)
  | .float | .double => canonicalNumber width fun n => n % 256 == 0
  | .array => do
    Decoder.require (argument = 0)
    canonicalArrayWith value
  | .annotated => do
    Decoder.require (argument = 0)
    canonicalAnnotationWith value
  | .null => Decoder.require (argument = 0)
  | .boolean => Decoder.require (argument ≤ 1)
  | _ => canonicalNumber width fun n => n < capacity (width - 1)

/-- A value; `depth` bounds the nesting. -/
def canonicalWithin : (depth : Nat) → Decoder Unit
  | 0 => Decoder.fail .outOfBounds
  | depth + 1 => do
    let first ← Decoder.byte
    match ValueTag.ofCode? (first &&& 0x1F) with
    | none => Decoder.fail .outOfBounds
    | some tag => canonicalPayload (canonicalWithin depth) (first >>> 5) tag

/-- An array of values. -/
def canonicalArray : Decoder Unit := do
  canonicalArrayWith (canonicalWithin (← Decoder.remaining))

/-! ## The narrowest payloads -/

/-- A width that passes a test is the least one if the width below it does not pass. -/
theorem leastWidth_eq {f : Nat → Bool} {w : Nat} (hw : f w = true) (hpos : 0 < w) (hle : w ≤ 8)
    (hmono : ∀ {m n}, m ≤ n → f m = true → f n = true) (hnarrow : w = 1 ∨ f (w - 1) = false) :
    leastWidth f = w := by
  obtain ⟨hleast, hleast0, hleastle⟩ := leastWidth_spec hw hpos hle
  rcases hnarrow with rfl | hnarrow
  · omega
  · by_contra hne
    rw [hmono (show leastWidth f ≤ w - 1 by omega) hleast] at hnarrow
    cases hnarrow

section Payloads

variable {w : Nat} {bytes : List UInt8}

theorem encodeSigned_signed (bytes : List UInt8) :
    encodeSigned bytes.length (signed bytes.length (LittleEndian.decode bytes)) = bytes := by
  have hlt := decode_lt bytes
  have hmod : (signed bytes.length (LittleEndian.decode bytes) % capacity bytes.length).toNat =
      LittleEndian.decode bytes := by
    unfold signed
    split
    · rw [Int.emod_eq_of_lt (by omega) (by omega), Int.toNat_natCast]
    · rw [Int.sub_emod_right, Int.emod_eq_of_lt (by omega) (by omega), Int.toNat_natCast]
  rw [encodeSigned, hmod, encode_decode]

theorem signedPayload_signed (hlen : bytes.length = w) (hpos : 0 < w) (hle : w ≤ 8)
    (hnarrow : w = 1 ∨ fitsSigned (signed w (LittleEndian.decode bytes)) (w - 1) = false) :
    signedPayload (signed w (LittleEndian.decode bytes)) = bytes := by
  subst hlen
  rw [signedPayload, leastWidth_eq (fitsSigned_signed (decode_lt bytes)) hpos hle fitsSigned_mono
    hnarrow, encodeSigned_signed]

theorem unsignedPayload_decode (hlen : bytes.length = w) (hpos : 0 < w) (hle : w ≤ 8)
    (hnarrow : w = 1 ∨ decide (LittleEndian.decode bytes < capacity (w - 1)) = false) :
    unsignedPayload (LittleEndian.decode bytes) = bytes := by
  subst hlen
  rw [unsignedPayload, leastWidth_eq (by simpa using decode_lt bytes) hpos hle
    (fun hmn h => ?_) hnarrow, encode_decode]
  have hmono := capacity_mono hmn
  simp only [decide_eq_true_eq] at h ⊢
  omega

/-- The zeros below a floating-point number are left out, and nothing else is. -/
theorem rightFilledPayload_decode {width : Nat} (hlen : bytes.length = w) (hpos : 0 < w)
    (hle : w ≤ width) (hnarrow : w = 1 ∨ (LittleEndian.decode bytes % 256 == 0) = false) :
    rightFilledPayload width (LittleEndian.decode bytes * capacity (width - w)) = bytes := by
  have hne : bytes ≠ [] := List.ne_nil_of_length_pos (by omega)
  have hwidth : width = width - w + w := by omega
  have hbytes : LittleEndian.encode width (LittleEndian.decode bytes * capacity (width - w)) =
      List.replicate (width - w) 0 ++ bytes := by
    conv => lhs; rw [hwidth]
    rw [Nat.add_sub_cancel, Nat.mul_comm, encode_capacity_mul, ← hlen, encode_decode]
  rw [rightFilledPayload, hbytes, dropLowZeros_replicate_append _ hne]
  obtain ⟨b, rest, rfl⟩ := List.exists_cons_of_ne_nil hne
  cases rest with
  | nil => simp [dropLowZeros]
  | cons c rest =>
    have hb : b ≠ 0 := by
      rintro rfl
      rcases hnarrow with rfl | hnarrow
      · simp at hlen
      · simp [LittleEndian.decode] at hnarrow
    simp [dropLowZeros, hb]

end Payloads

/-- The first byte of a value is made of its type and its argument. -/
theorem header_eq {first : UInt8} {tag : ValueTag}
    (htag : ValueTag.ofCode? (first &&& 0x1F) = some tag) :
    header tag (first >>> 5).toNat = first := by
  have hcode : tag.code = first &&& 0x1F := by
    have := List.find?_some htag
    simpa using this
  have hbits : ∀ b : BitVec 8, (b >>> 5) <<< 5 ||| (b &&& 0x1F#8) = b := by decide
  unfold header
  rw [hcode, Nat.toUInt8_eq, UInt8.ofNat_toNat, ← UInt8.toBitVec_inj]
  exact hbits first.toBitVec

/-! ## Values without values -/

section Leaves

variable {g : Graph} {data : Bytes} {p q r w k : Nat} {v : Value} {tag : ValueTag} {first : UInt8}

/-- The form of a value is its first byte and its payload. -/
theorem spells_sized (hfirst : data[p]? = some first) (htag : header tag k = first)
    {payload : List UInt8} (hlen : payload.length = k + 1) (hat : data.HoldsAt (p + 1) payload)
    (hencode : v.encode = .ok (sized tag payload)) :
    data.Spells p (p + 1 + (k + 1)) v.encode := by
  rw [hencode]
  refine ⟨_, rfl, ?_, by rw [sized, List.length_cons, hlen]; omega⟩
  rw [sized, hlen, Nat.add_sub_cancel, htag]
  exact Bytes.holdsAt_cons.mpr ⟨hfirst, hat⟩

/-- A number and the walk over it: the payload has the stated width, and no byte to spare. -/
theorem exists_of_canonicalNumber {narrower : Nat → Bool} {n : Nat}
    (h : (Decoder.number w).Reads data p n q)
    (hwalk : (canonicalNumber w narrower).Reads data p () r) :
    r = q ∧ q = p + w ∧ ∃ bytes : List UInt8, bytes.length = w ∧ data.HoldsAt p bytes ∧
      n = LittleEndian.decode bytes ∧ (w = 1 ∨ narrower (LittleEndian.decode bytes) = false) := by
  obtain ⟨n', _, hn', hrequire⟩ := Decoder.reads_bind_iff.mp hwalk
  obtain ⟨hnarrow, rfl⟩ := Decoder.reads_require_iff.mp hrequire
  obtain ⟨rfl, rfl⟩ := hn'.unique h
  obtain ⟨bytes, hlen, hat, -, rfl, rfl⟩ := Decoder.reads_number_iff.mp h
  exact ⟨rfl, rfl, bytes, hlen, hat, rfl, hnarrow⟩

variable (hfirst : data[p]? = some first) (htag : header tag k = first)
  {narrower : Nat → Bool} (hwalk : (canonicalNumber (k + 1) narrower).Reads data (p + 1) () r)
include hfirst htag hwalk

theorem keeps_number (make : Nat → Value)
    (hencode : ∀ bytes : List UInt8, bytes.length = k + 1 →
      (k + 1 = 1 ∨ narrower (LittleEndian.decode bytes) = false) →
      (make (LittleEndian.decode bytes)).encode = .ok (sized tag bytes))
    (h : (do return make (← Decoder.number (k + 1)) : Decoder Value).Reads data (p + 1) v q) :
    r = q ∧ data.Spells p q v.encode := by
  obtain ⟨n, _, hn, hpure⟩ := Decoder.reads_bind_iff.mp h
  obtain ⟨rfl, rfl⟩ := Decoder.reads_pure_iff.mp hpure
  obtain ⟨rfl, rfl, bytes, hlen, hat, rfl, hnarrow⟩ := exists_of_canonicalNumber hn hwalk
  exact ⟨rfl, spells_sized hfirst htag hlen hat (hencode bytes hlen hnarrow)⟩

/-- A number that is read as a two's complement. -/
theorem keeps_signed {width : Nat} (hle : k + 1 ≤ width) (hwidth : width ≤ 8)
    (hnarrower : narrower = fun n => fitsSigned (signed (k + 1) n) (k + 1 - 1)) (make : Int → Value)
    (hencode : ∀ n, fitsSigned n width = true →
      (make n).encode = .ok (sized tag (signedPayload n)))
    (h : (do return make (← Decoder.signedNumber (k + 1)) : Decoder Value).Reads data (p + 1) v q) :
    r = q ∧ data.Spells p q v.encode := by
  subst hnarrower
  obtain ⟨_, _, hsigned, hpure⟩ := Decoder.reads_bind_iff.mp h
  obtain ⟨rfl, rfl⟩ := Decoder.reads_pure_iff.mp hpure
  obtain ⟨n, _, hn, hpure⟩ := Decoder.reads_bind_iff.mp hsigned
  obtain ⟨rfl, rfl⟩ := Decoder.reads_pure_iff.mp hpure
  have hfits := fitsSigned_mono hle (fitsSigned_signed (lt_of_reads_number hn).1)
  obtain ⟨rfl, rfl, bytes, hlen, hat, rfl, hnarrow⟩ := exists_of_canonicalNumber hn hwalk
  refine ⟨rfl, spells_sized hfirst htag hlen hat ?_⟩
  rw [hencode _ hfits, signedPayload_signed hlen (Nat.succ_pos k) (hle.trans hwidth) hnarrow]

/-- An index that is read in up to four bytes is the position of what it names. -/
theorem keeps_ref (hle : k + 1 ≤ 4)
    (hnarrower : narrower = fun n => decide (n < capacity (k + 1 - 1))) {s : Section}
    {make : Ref s → Value}
    (hencode : ∀ x, (make x).encode = .ok (sized tag (unsignedPayload x.pos)))
    (h : (do return make (← decodeRef g s (k + 1)) : Decoder Value).Reads data (p + 1) v q) :
    r = q ∧ data.Spells p q v.encode := by
  subst hnarrower
  obtain ⟨x, _, hx, hpure⟩ := Decoder.reads_bind_iff.mp h
  obtain ⟨rfl, rfl⟩ := Decoder.reads_pure_iff.mp hpure
  obtain ⟨n, _, hn, hindex⟩ := Decoder.reads_bind_iff.mp hx
  obtain ⟨hresolve, rfl⟩ := Decoder.reads_ofExcept_iff.mp hindex
  have hword : n < 2 ^ 32 := (lt_of_reads_number hn).1.trans_le (capacity_mono hle)
  have hslot : x.pos = n := by
    rw [(Graph.resolve_eq_ok_iff.mp hresolve).1, Ref.pos, toNat_toUInt32 hword]
  obtain ⟨rfl, rfl, bytes, hlen, hat, rfl, hnarrow⟩ := exists_of_canonicalNumber hn hwalk
  refine ⟨rfl, spells_sized hfirst htag hlen hat ?_⟩
  rw [hencode, hslot, unsignedPayload_decode hlen (Nat.succ_pos k) (hle.trans (by decide)) hnarrow]

end Leaves

/-! ## Lists of values -/

section Lists

variable {g : Graph} {value : Decoder Value} {strict : Decoder Unit} {data : Bytes} {p q r : Nat}

/-- The number of elements, which is read in shortest form. -/
theorem keeps_count {n n' : UInt32} (h : Decoder.unsignedLeb.Reads data p n q)
    (hwalk : Decoder.shortestLeb.Reads data p n' r) :
    n' = n ∧ r = q ∧ data.Spells p q (encodeCount n.toNat) := by
  obtain ⟨rfl, rfl, hspells⟩ := Decoder.shortestLeb_eq h hwalk
  refine ⟨rfl, rfl, ?_⟩
  rwa [encodeCount_eq_ok_iff.mpr ⟨n', rfl, rfl⟩]

theorem keeps_decodeIndex {s : Section} {x : Ref s} {n : UInt32}
    (h : (decodeIndex g s).Reads data p x q) (hwalk : Decoder.shortestLeb.Reads data p n r) :
    r = q ∧ data.Spells p q (.ok (encodeIndex x)) := by
  obtain ⟨index, _, hindex, hentry⟩ := Decoder.reads_bind_iff.mp h
  obtain ⟨hresolve, rfl⟩ := Decoder.reads_ofExcept_iff.mp hentry
  obtain ⟨rfl, rfl, hspells⟩ := Decoder.shortestLeb_eq hindex hwalk
  rw [encodeIndex, (Graph.resolve_eq_ok_iff.mp hresolve).1]
  exact ⟨rfl, hspells⟩

theorem keeps_each (hvalue : value.Keeps strict Value.encode) {values : List Value}
    (h : Decoder.ReadsEach value data p values q)
    (hwalk : Decoder.ReadsEach strict data p (List.replicate values.length ()) r) :
    r = q ∧ data.Spells p q (encodeEach values) := by
  induction values generalizing p with
  | nil =>
    obtain rfl : q = p := h
    exact ⟨hwalk, Bytes.spells_nil⟩
  | cons v rest ih =>
    obtain ⟨m, hv, hrest⟩ := h
    obtain ⟨m', hv', hrest'⟩ := hwalk
    obtain ⟨rfl, hhead⟩ := hvalue data p v m () m' hv hv'
    obtain ⟨rfl, htail⟩ := ih hrest hrest'
    rw [encodeEach]
    exact ⟨rfl, hhead.append htail⟩

theorem keeps_elements (hvalue : value.Keeps strict Value.encode)
    {elements : List (Ref .stringId × Value)}
    (h : Decoder.ReadsEach (decodeElement g value) data p elements q)
    (hwalk : Decoder.ReadsEach (do let _ ← Decoder.shortestLeb; strict) data p
      (List.replicate elements.length ()) r) :
    r = q ∧ data.Spells p q (encodeElements elements) := by
  induction elements generalizing p with
  | nil =>
    obtain rfl : q = p := h
    exact ⟨hwalk, Bytes.spells_nil⟩
  | cons x rest ih =>
    obtain ⟨m, hx, hrest⟩ := h
    obtain ⟨m', hx', hrest'⟩ := hwalk
    obtain ⟨name, _, hname, hx⟩ := Decoder.reads_bind_iff.mp hx
    obtain ⟨v, _, hv, hpure⟩ := Decoder.reads_bind_iff.mp hx
    obtain ⟨rfl, rfl⟩ := Decoder.reads_pure_iff.mp hpure
    obtain ⟨n, _, hn, hv'⟩ := Decoder.reads_bind_iff.mp hx'
    obtain ⟨rfl, hindex⟩ := keeps_decodeIndex hname hn
    obtain ⟨rfl, hhead⟩ := hvalue data _ v _ () m' hv hv'
    obtain ⟨rfl, htail⟩ := ih hrest hrest'
    have hspells := (hindex.append hhead).append htail
    refine ⟨rfl, ?_⟩
    rw [encodeElements]
    obtain ⟨part, hpart, hat⟩ := hspells
    simp only [Except.bind_eq_ok_iff, Except.pure_eq_ok_iff, Except.ok.injEq] at hpart
    obtain ⟨_, ⟨_, rfl, head, hhead, rfl⟩, tail, htail, rfl⟩ := hpart
    exact ⟨_, by rw [hhead, htail]; rfl, hat⟩

theorem decodeArrayWith_keeps (hvalue : value.Keeps strict Value.encode) :
    (decodeArrayWith value).Keeps (canonicalArrayWith strict) encodeArray := by
  intro data p values q b r h hwalk
  obtain ⟨n, start, hn, hgather⟩ := Decoder.reads_bind_iff.mp h
  obtain ⟨xs, stop, hxs, hpure⟩ := Decoder.reads_bind_iff.mp hgather
  obtain ⟨rfl, rfl⟩ := Decoder.reads_pure_iff.mp hpure
  obtain ⟨hsize, heach⟩ := Decoder.reads_gather_iff.mp hxs
  obtain ⟨n', start', hn', htimes⟩ := Decoder.reads_bind_iff.mp hwalk
  obtain ⟨rfl, rfl, hcount⟩ := keeps_count hn hn'
  rw [← hsize, ← Array.length_toList] at hcount htimes
  obtain ⟨rfl, hbody⟩ := keeps_each hvalue heach (Decoder.reads_times_iff.mp htimes)
  exact ⟨rfl, hcount.append hbody⟩

theorem decodeAnnotationWith_keeps (hvalue : value.Keeps strict Value.encode) :
    (decodeAnnotationWith g value).Keeps (canonicalAnnotationWith strict) Annotation.encode := by
  intro data p a q b r h hwalk
  obtain ⟨owner, m, howner, hrest⟩ := Decoder.reads_bind_iff.mp h
  obtain ⟨n, start, hn, hgather⟩ := Decoder.reads_bind_iff.mp hrest
  obtain ⟨xs, stop, hxs, hpure⟩ := Decoder.reads_bind_iff.mp hgather
  obtain ⟨rfl, rfl⟩ := Decoder.reads_pure_iff.mp hpure
  obtain ⟨hsize, heach⟩ := Decoder.reads_gather_iff.mp hxs
  obtain ⟨owner', m', howner', hrest'⟩ := Decoder.reads_bind_iff.mp hwalk
  obtain ⟨n', start', hn', htimes⟩ := Decoder.reads_bind_iff.mp hrest'
  obtain ⟨rfl, hindex⟩ := keeps_decodeIndex howner howner'
  obtain ⟨rfl, rfl, hcount⟩ := keeps_count hn hn'
  rw [← hsize, ← Array.length_toList] at hcount htimes
  obtain ⟨rfl, hbody⟩ := keeps_elements hvalue heach (Decoder.reads_times_iff.mp htimes)
  have hspells := (hindex.append hcount).append hbody
  refine ⟨rfl, ?_⟩
  obtain ⟨part, hpart, hat⟩ := hspells
  simp only [Except.bind_eq_ok_iff, Except.pure_eq_ok_iff, Except.ok.injEq] at hpart
  obtain ⟨_, ⟨_, rfl, count, hcount, rfl⟩, body, hbody, rfl⟩ := hpart
  exact ⟨_, by rw [ Annotation.encode, hcount, hbody]; rfl, hat⟩

end Lists

/-! ## Values -/

section Values

variable {g : Graph} {value : Decoder Value} {strict : Decoder Unit}

/-- The form of a value is its first byte and what its payload is read from. -/
theorem decodePayload_keeps (hvalue : value.Keeps strict Value.encode) {first : UInt8}
    {tag : ValueTag} (htag : ValueTag.ofCode? (first &&& 0x1F) = some tag)
    (hwidth : ∀ width ∈ tag.maxWidth?, (first >>> 5).toNat + 1 ≤ width) {data : Bytes} {p : Nat}
    (hfirst : data[p]? = some first) {v : Value} {q r : Nat}
    (h : (decodePayload g value (first >>> 5) tag).Reads data (p + 1) v q)
    (hwalk : (canonicalPayload strict (first >>> 5) tag).Reads data (p + 1) () r) :
    r = q ∧ data.Spells p q v.encode := by
  have hhead := header_eq htag
  have hpos := Nat.succ_pos (first >>> 5).toNat
  have hsingle (argument : Nat) (hargument : (first >>> 5).toNat = argument) :
      data.Spells p (p + 1) (.ok [header tag argument]) := by
    subst hargument
    rw [hhead]
    exact ⟨_, rfl, Bytes.holdsAt_singleton.mpr hfirst, rfl⟩
  cases tag with
  | byte =>
    refine keeps_signed hfirst hhead hwalk (hwidth 1 rfl) (by decide) rfl
      (fun n => .byte (Int8.ofInt n)) (fun n hn => ?_) h
    obtain ⟨hlow, hhigh⟩ := bounds_of_fitsSigned (2 ^ 7) hn rfl
    rw [encode, Int8.toInt_ofInt_of_le hlow hhigh]
  | short =>
    refine keeps_signed hfirst hhead hwalk (hwidth 2 rfl) (by decide) rfl
      (fun n => .short (Int16.ofInt n)) (fun n hn => ?_) h
    obtain ⟨hlow, hhigh⟩ := bounds_of_fitsSigned (2 ^ 15) hn rfl
    rw [encode, Int16.toInt_ofInt_of_le hlow hhigh]
  | int =>
    refine keeps_signed hfirst hhead hwalk (hwidth 4 rfl) (by decide) rfl
      (fun n => .int (Int32.ofInt n)) (fun n hn => ?_) h
    obtain ⟨hlow, hhigh⟩ := bounds_of_fitsSigned (2 ^ 31) hn rfl
    rw [encode, Int32.toInt_ofInt_of_le hlow hhigh]
  | long =>
    refine keeps_signed hfirst hhead hwalk (hwidth 8 rfl) (by decide) rfl
      (fun n => .long (Int64.ofInt n)) (fun n hn => ?_) h
    obtain ⟨hlow, hhigh⟩ := bounds_of_fitsSigned (2 ^ 63) hn rfl
    rw [encode, Int64.toInt_ofInt_of_le hlow hhigh]
  | char =>
    have hle : (first >>> 5).toNat + 1 ≤ 2 := hwidth 2 rfl
    refine keeps_number hfirst hhead hwalk (fun n => .char n.toUInt16)
      (fun bytes hlen hnarrow => ?_) h
    have hlt : LittleEndian.decode bytes < 2 ^ 16 :=
      (hlen ▸ decode_lt bytes).trans_le (capacity_mono hle)
    rw [encode, Nat.toUInt16_eq, UInt16.toNat_ofNat_of_lt' hlt,
      unsignedPayload_decode hlen hpos (hle.trans (by decide)) hnarrow]
  | float =>
    have hle : (first >>> 5).toNat + 1 ≤ 4 := hwidth 4 rfl
    refine keeps_number hfirst hhead hwalk
      (fun n => .float (n * capacity (4 - ((first >>> 5).toNat + 1))).toUInt32)
      (fun bytes hlen hnarrow => ?_) h
    rw [encode, Nat.toUInt32_eq,
      UInt32.toNat_ofNat_of_lt' (mul_capacity_lt (hlen ▸ decode_lt bytes) hle),
      rightFilledPayload_decode hlen hpos hle hnarrow]
  | double =>
    have hle : (first >>> 5).toNat + 1 ≤ 8 := hwidth 8 rfl
    refine keeps_number hfirst hhead hwalk
      (fun n => .double (n * capacity (8 - ((first >>> 5).toNat + 1))).toUInt64)
      (fun bytes hlen hnarrow => ?_) h
    rw [encode, Nat.toUInt64_eq,
      UInt64.toNat_ofNat_of_lt' (mul_capacity_lt (hlen ▸ decode_lt bytes) hle),
      rightFilledPayload_decode hlen hpos hle hnarrow]
  | methodType | methodHandle | string | type | field | method | enum =>
    exact keeps_ref hfirst hhead hwalk (hwidth 4 rfl) rfl (fun _ => by rw [encode]) h
  | array =>
    obtain ⟨hzero, hstrict⟩ := Decoder.reads_require_bind_iff.mp hwalk
    obtain ⟨values, _, hvalues, hpure⟩ := Decoder.reads_bind_iff.mp h
    obtain ⟨rfl, rfl⟩ := Decoder.reads_pure_iff.mp hpure
    obtain ⟨rfl, hbody⟩ := decodeArrayWith_keeps hvalue _ _ _ _ _ _ hvalues hstrict
    rw [encode_array]
    exact ⟨rfl, (hsingle 0 (by rw [hzero]; rfl)).append hbody⟩
  | annotated =>
    obtain ⟨hzero, hstrict⟩ := Decoder.reads_require_bind_iff.mp hwalk
    obtain ⟨a, _, ha, hpure⟩ := Decoder.reads_bind_iff.mp h
    obtain ⟨rfl, rfl⟩ := Decoder.reads_pure_iff.mp hpure
    obtain ⟨rfl, hbody⟩ := decodeAnnotationWith_keeps hvalue _ _ _ _ _ _ ha hstrict
    rw [encode_annotated]
    exact ⟨rfl, (hsingle 0 (by rw [hzero]; rfl)).append hbody⟩
  | null =>
    obtain ⟨hzero, rfl⟩ := Decoder.reads_require_iff.mp hwalk
    obtain ⟨rfl, rfl⟩ := Decoder.reads_pure_iff.mp h
    exact ⟨rfl, hsingle 0 (by rw [hzero]; rfl)⟩
  | boolean =>
    obtain ⟨hle, rfl⟩ := Decoder.reads_require_iff.mp hwalk
    obtain ⟨rfl, rfl⟩ := Decoder.reads_pure_iff.mp h
    refine ⟨rfl, hsingle _ ?_⟩
    have hle : (first >>> 5).toNat ≤ 1 := UInt8.le_iff_toNat_le.mp hle
    by_cases hzero : first >>> 5 = 0
    · simp [hzero]
    · have hne : (first >>> 5).toNat ≠ 0 := fun h => hzero (UInt8.toNat_inj.mp h)
      rw [show (first >>> 5 != 0) = true by simpa using hzero, Bool.toNat_true]
      omega

theorem decodeWithin_keeps (depth depth' : Nat) :
    (decodeWithin g depth).Keeps (canonicalWithin depth') Value.encode := by
  induction depth generalizing depth' with
  | zero => exact fun _ _ _ _ _ _ h => absurd h Decoder.not_reads_fail
  | succ depth ih =>
    intro data p v q b r h hwalk
    obtain ⟨start, _, hstart, hrest⟩ := Decoder.reads_bind_iff.mp h
    obtain ⟨-, rfl⟩ := Decoder.reads_position_iff.mp hstart
    obtain ⟨first, _, hbyte, hpayload⟩ := Decoder.reads_bind_iff.mp hrest
    obtain ⟨hfirst, rfl⟩ := Decoder.reads_byte_iff.mp hbyte
    dsimp only at hpayload
    cases depth' with
    | zero => exact absurd hwalk Decoder.not_reads_fail
    | succ depth' =>
      obtain ⟨first', _, hbyte', hstrict⟩ := Decoder.reads_bind_iff.mp hwalk
      obtain ⟨hfirst', rfl⟩ := Decoder.reads_byte_iff.mp hbyte'
      obtain rfl := Option.some.inj (hfirst.symm.trans hfirst')
      cases htag : ValueTag.ofCode? (first &&& 0x1F) with
      | none =>
        rw [htag] at hpayload
        exact absurd hpayload Decoder.not_reads_fail
      | some tag =>
        rw [htag] at hpayload hstrict
        dsimp only at hpayload
        split at hpayload
        · obtain ⟨_, _, hfail, -⟩ := Decoder.reads_bind_iff.mp hpayload
          exact absurd hfail Decoder.not_reads_fail
        · rename_i hfits
          have hwidth : ∀ width ∈ tag.maxWidth?, (first >>> 5).toNat + 1 ≤ width := by
            intro width hmem
            rw [Option.mem_def] at hmem
            simpa [hmem] using hfits
          exact decodePayload_keeps (ih depth') htag hwidth hfirst hpayload hstrict

theorem decodeArray_keeps : (decodeArray g).Keeps canonicalArray encodeArray := by
  intro data p values q b r h hwalk
  obtain ⟨n, _, hn, hvalues⟩ := Decoder.reads_bind_iff.mp h
  obtain ⟨-, rfl⟩ := Decoder.reads_remaining_iff.mp hn
  obtain ⟨n', _, hn', hstrict⟩ := Decoder.reads_bind_iff.mp hwalk
  obtain ⟨-, rfl⟩ := Decoder.reads_remaining_iff.mp hn'
  exact decodeArrayWith_keeps (decodeWithin_keeps n n') _ _ _ _ _ _ hvalues hstrict

end Values

end Value

namespace Annotation

/-- An annotation. -/
def canonical : Decoder Unit := do
  Value.canonicalAnnotationWith (Value.canonicalWithin (← Decoder.remaining))

theorem decode_keeps {g : Graph} : ( Annotation.decode g).Keeps canonical Annotation.encode := by
  intro data p a q b r h hwalk
  obtain ⟨n, _, hn, hbody⟩ := Decoder.reads_bind_iff.mp h
  obtain ⟨-, rfl⟩ := Decoder.reads_remaining_iff.mp hn
  obtain ⟨n', _, hn', hstrict⟩ := Decoder.reads_bind_iff.mp hwalk
  obtain ⟨-, rfl⟩ := Decoder.reads_remaining_iff.mp hn'
  exact Value.decodeAnnotationWith_keeps (Value.decodeWithin_keeps n n') _ _ _ _ _ _ hbody hstrict

end Annotation

end DexGraph
