import DexGraph.Bytes.Basic

/-!
# Little-endian numbers

Numbers of a fixed width are stored with their lowest byte first, negative ones as their two's
complement. `decode_encode` says that the bytes of a number give back the number as far as the
width holds it.
-/

namespace DexGraph.LittleEndian

/-- The lowest `width` bytes of a number, the lowest first. -/
def encode : (width : Nat) → Nat → List UInt8
  | 0, _ => []
  | width + 1, n => n.toUInt8 :: encode width (n / 256)

/-- The number of a sequence of bytes, the lowest first. -/
def decode : List UInt8 → Nat
  | [] => 0
  | b :: rest => b.toNat + 256 * decode rest

/-- How many numbers there are of a width: the least number that does not fit. -/
def capacity : (width : Nat) → Nat
  | 0 => 1
  | width + 1 => 256 * capacity width

/-- The number whose two's complement in `width` bytes is `n`. -/
def signed (width n : Nat) : Int :=
  if 2 * n < capacity width then n else n - capacity width

/-- The two's complement of a number in `width` bytes, the lowest first. -/
def encodeSigned (width : Nat) (v : Int) : List UInt8 :=
  encode width (v % capacity width).toNat

@[simp] theorem length_encode (width n : Nat) : (encode width n).length = width := by
  induction width generalizing n with
  | zero => rfl
  | succ width ih => simp [encode, ih]

theorem decode_encode (width n : Nat) : decode (encode width n) = n % capacity width := by
  induction width generalizing n with
  | zero => simp [encode, decode, capacity, Nat.mod_one]
  | succ width ih =>
    rw [encode, decode, ih, capacity, Nat.mod_mul]
    simp

@[simp] theorem length_encodeSigned (width : Nat) (v : Int) :
    (encodeSigned width v).length = width :=
  length_encode ..

theorem decode_lt (bytes : List UInt8) : decode bytes < capacity bytes.length := by
  induction bytes with
  | nil => simp [decode, capacity]
  | cons b rest ih =>
    have hb := b.toNat_lt
    rw [decode, List.length_cons, capacity]
    omega

theorem encode_decode (bytes : List UInt8) : encode bytes.length (decode bytes) = bytes := by
  induction bytes with
  | nil => rfl
  | cons b rest ih =>
    have hb := b.toNat_lt
    have hdiv : (b.toNat + 256 * decode rest) / 256 = decode rest := by omega
    have hlow : (b.toNat + 256 * decode rest).toUInt8 = b := by
      apply UInt8.toNat_inj.1
      simp [Nat.toUInt8_eq]
    rw [List.length_cons, decode, encode, hdiv, ih, hlow]

end DexGraph.LittleEndian

namespace DexGraph

/-! ## Words as byte strings -/

namespace Bytes

/-- The byte string of one byte. -/
def ofByte (b : UInt8) : Bytes :=
  #[b]

/-- The two bytes of a 16-bit word. -/
def ofHalfWord (w : UInt16) : Bytes :=
  (LittleEndian.encode 2 w.toNat).toArray

/-- The four bytes of a 32-bit word. -/
def ofWord (w : UInt32) : Bytes :=
  (LittleEndian.encode 4 w.toNat).toArray

/-- The eight bytes of a 64-bit word. -/
def ofLongWord (w : UInt64) : Bytes :=
  (LittleEndian.encode 8 w.toNat).toArray

@[simp] theorem size_ofByte (b : UInt8) : (ofByte b).size = 1 := rfl

@[simp] theorem size_ofHalfWord (w : UInt16) : (ofHalfWord w).size = 2 := by
  simp [ofHalfWord]

@[simp] theorem size_ofWord (w : UInt32) : (ofWord w).size = 4 := by
  simp [ofWord]

@[simp] theorem size_ofLongWord (w : UInt64) : (ofLongWord w).size = 8 := by
  simp [ofLongWord]

end Bytes

end DexGraph
