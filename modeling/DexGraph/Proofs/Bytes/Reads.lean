import DexGraph.Bytes.Leb128
import DexGraph.Proofs.Bytes.HoldsAt

/-!
# What decoders read

`Decoder.Reads d data p a q` says that the decoder `d`, started at position `p` of `data`, succeeds
with `a` and stops at `q`. Every way of building decoders has an equivalence for it, so that a
decoder written in `do` notation opens into the sequence of its parts, in both directions. The
fixed-width primitives read exactly the bytes of the value they give (`Decoder.reads_word_iff`).
-/

namespace DexGraph

namespace Decoder

variable {α β : Type} {data : Bytes} {p q r : Nat}

/-- Started at `p` the decoder succeeds with `a` and stops at `q`. -/
def Reads (d : Decoder α) (data : Bytes) (p : Nat) (a : α) (q : Nat) : Prop :=
  d.runAt data p = .ok (a, q)

theorem Reads.unique {d : Decoder α} {a b : α} (h : d.Reads data p a q)
    (h' : d.Reads data p b r) : a = b ∧ q = r := by
  have e := h.symm.trans h'
  cases e
  exact ⟨rfl, rfl⟩

theorem reads_pure_iff {a b : α} :
    (pure a : Decoder α).Reads data p b q ↔ b = a ∧ q = p := by
  change Except.ok (a, p) = Except.ok (b, q) ↔ _
  constructor
  · rintro ⟨⟩
    exact ⟨rfl, rfl⟩
  · rintro ⟨rfl, rfl⟩
    rfl

theorem runAt_bind (d : Decoder α) (f : α → Decoder β) (data : Bytes) (p : Nat) :
    (d >>= f).runAt data p =
      match d.runAt data p with
      | .ok (a, q) => (f a).runAt data q
      | .error e => .error e := by
  change (d data p >>= fun x => f x.1 data x.2) = _
  cases h : d data p with
  | error e => simp only [runAt, h]; rfl
  | ok x => simp only [runAt, h]; rfl

theorem reads_bind_iff {d : Decoder α} {f : α → Decoder β} {b : β} :
    (d >>= f).Reads data p b r ↔ ∃ a q, d.Reads data p a q ∧ (f a).Reads data q b r := by
  simp only [Reads, runAt_bind]
  cases d.runAt data p with
  | error e => simp
  | ok x =>
    obtain ⟨a, q⟩ := x
    constructor
    · intro h
      exact ⟨a, q, rfl, h⟩
    · rintro ⟨_, _, ⟨⟩, h⟩
      exact h

theorem Reads.bind {d : Decoder α} {f : α → Decoder β} {a : α} {b : β}
    (h : d.Reads data p a q) (h' : (f a).Reads data q b r) : (d >>= f).Reads data p b r :=
  reads_bind_iff.mpr ⟨a, q, h, h'⟩

theorem reads_map_iff {d : Decoder α} {f : α → β} {b : β} :
    (f <$> d).Reads data p b q ↔ ∃ a, d.Reads data p a q ∧ f a = b := by
  rw [map_eq_pure_bind, reads_bind_iff]
  simp only [reads_pure_iff]
  constructor
  · rintro ⟨a, _, h, rfl, rfl⟩
    exact ⟨a, h, rfl⟩
  · rintro ⟨a, h, rfl⟩
    exact ⟨a, q, h, rfl, rfl⟩

theorem reads_discard_iff {d : Decoder α} {u : Unit} :
    (discard d).Reads data p u q ↔ ∃ a, d.Reads data p a q := by
  change (Function.const α () <$> d).Reads data p u q ↔ _
  simp [reads_map_iff]

theorem Reads.discard {d : Decoder α} {a : α} (h : d.Reads data p a q) :
    (discard d).Reads data p () q :=
  reads_discard_iff.mpr ⟨a, h⟩

@[simp] theorem not_reads_fail {e : Error} {a : α} : ¬ (fail e : Decoder α).Reads data p a q := by
  intro h
  cases h

theorem reads_ofExcept_iff {x : Except Error α} {a : α} :
    (ofExcept x).Reads data p a q ↔ x = .ok a ∧ q = p := by
  change x.map (·, p) = .ok (a, q) ↔ _
  cases x with
  | error e => simp [Except.map]
  | ok b => simp [Except.map, eq_comm]

theorem reads_position_iff {n : Nat} : position.Reads data p n q ↔ n = p ∧ q = p := by
  change Except.ok (p, p) = Except.ok (n, q) ↔ _
  simp [eq_comm]

theorem reads_remaining_iff {n : Nat} :
    remaining.Reads data p n q ↔ n = data.size - p ∧ q = p := by
  change Except.ok (data.size - p, p) = Except.ok (n, q) ↔ _
  simp [eq_comm]

theorem reads_seek_iff {target : Nat} {u : Unit} :
    (seek target).Reads data p u q ↔ target ≤ data.size ∧ q = target := by
  change (if target ≤ data.size then Except.ok ((), target) else .error Error.outOfBounds) =
    Except.ok (u, q) ↔ _
  split <;> simp_all [eq_comm]

theorem reads_advance_iff {step : Nat} {u : Unit} :
    (advance step).Reads data p u q ↔ p + step ≤ data.size ∧ q = p + step := by
  change (if p + step ≤ data.size then Except.ok ((), p + step) else .error Error.outOfBounds) =
    Except.ok (u, q) ↔ _
  split <;> simp_all [eq_comm]

theorem reads_elsewhere_iff {target : Nat} {d : Decoder α} {a : α} :
    (elsewhere target d).Reads data p a q ↔
      (∃ r, d.Reads data target a r) ∧ target ≤ data.size ∧ p ≤ data.size ∧ q = p := by
  simp only [elsewhere, reads_bind_iff, reads_position_iff, reads_seek_iff, reads_pure_iff]
  constructor
  · rintro ⟨_, _, ⟨rfl, rfl⟩, -, _, ⟨ht, rfl⟩, b, r, h, -, _, ⟨hp, rfl⟩, rfl, rfl⟩
    exact ⟨⟨r, h⟩, ht, hp, rfl⟩
  · rintro ⟨⟨r, h⟩, ht, hp, rfl⟩
    exact ⟨_, _, ⟨rfl, rfl⟩, (), _, ⟨ht, rfl⟩, a, r, h, (), _, ⟨hp, rfl⟩, rfl, rfl⟩

/-! ## Bytes and numbers -/

theorem reads_byte_iff {b : UInt8} :
    byte.Reads data p b q ↔ data[p]? = some b ∧ q = p + 1 := by
  unfold Reads runAt byte
  cases data[p]? with
  | none => simp
  | some c => simp [eq_comm]

theorem reads_bytes_iff {n : Nat} {part : Bytes} :
    (bytes n).Reads data p part q ↔
      data.HoldsAt p part.toList ∧ part.size = n ∧ p + n ≤ data.size ∧ q = p + n := by
  unfold Reads runAt bytes
  cases h : data.slice? p n with
  | none =>
    have hn : ¬ p + n ≤ data.size := by
      simpa [Bytes.slice?] using h
    simp [hn]
  | some part' =>
    obtain ⟨hle, heq⟩ := Bytes.slice?_eq_some_iff.mp h
    obtain ⟨hat, hsize⟩ := Bytes.holdsAt_of_slice? h
    constructor
    · intro e
      cases e
      exact ⟨hat, hsize, hle, rfl⟩
    · rintro ⟨hat', hsize', -, rfl⟩
      have := hat.unique hat' (by simp [hsize, hsize'])
      rw [Array.toList_inj.mp this]

theorem reads_number_iff {width n : Nat} :
    (number width).Reads data p n q ↔
      ∃ part, part.length = width ∧ data.HoldsAt p part ∧ p + width ≤ data.size ∧
        n = LittleEndian.decode part ∧ q = p + width := by
  simp only [number, reads_bind_iff, reads_bytes_iff, reads_pure_iff]
  constructor
  · rintro ⟨part, _, ⟨hat, hsize, hle, rfl⟩, rfl, rfl⟩
    exact ⟨part.toList, by simpa using hsize, hat, hle, rfl, rfl⟩
  · rintro ⟨part, hlen, hat, hle, rfl, rfl⟩
    exact ⟨part.toArray, _, ⟨by simpa using hat, by simpa using hlen, hle, rfl⟩, by simp, rfl⟩

theorem reads_number_encode {width n : Nat} (hn : n < LittleEndian.capacity width) (hw : width ≠ 0)
    (h : data.HoldsAt p (LittleEndian.encode width n)) :
    (number width).Reads data p n (p + width) := by
  refine reads_number_iff.mpr ⟨_, LittleEndian.length_encode .., h, ?_, ?_, rfl⟩
  · have := h.add_length_le (by rw [Ne, ← List.length_eq_zero_iff]; simpa using hw)
    simpa using this
  · rw [LittleEndian.decode_encode, Nat.mod_eq_of_lt hn]

private theorem encode_of_number {width n : Nat} {part : List UInt8} (hlen : part.length = width)
    (hn : n = LittleEndian.decode part) : LittleEndian.encode width n = part := by
  rw [hn, ← hlen, LittleEndian.encode_decode]

theorem reads_word_iff {v : UInt32} :
    word.Reads data p v q ↔ data.HoldsAt p (Bytes.ofWord v).toList ∧ q = p + 4 := by
  simp only [word, reads_bind_iff, reads_pure_iff]
  constructor
  · rintro ⟨n, _, h, rfl, rfl⟩
    obtain ⟨part, hlen, hat, -, hn, rfl⟩ := reads_number_iff.mp h
    have hlt : n < 2 ^ 32 := by
      have hpart := LittleEndian.decode_lt part
      have hcap : LittleEndian.capacity 4 = 2 ^ 32 := rfl
      rw [hlen, hcap] at hpart
      omega
    refine ⟨?_, rfl⟩
    rw [Bytes.ofWord, Nat.toUInt32_eq, UInt32.toNat_ofNat', Nat.mod_eq_of_lt hlt,
      encode_of_number hlen hn]
    exact hat
  · rintro ⟨hat, rfl⟩
    exact ⟨v.toNat, _, reads_number_encode v.toNat_lt (by decide) hat, by simp, rfl⟩

theorem reads_halfWord_iff {v : UInt16} :
    halfWord.Reads data p v q ↔ data.HoldsAt p (Bytes.ofHalfWord v).toList ∧ q = p + 2 := by
  simp only [halfWord, reads_bind_iff, reads_pure_iff]
  constructor
  · rintro ⟨n, _, h, rfl, rfl⟩
    obtain ⟨part, hlen, hat, -, hn, rfl⟩ := reads_number_iff.mp h
    have hlt : n < 2 ^ 16 := by
      have hpart := LittleEndian.decode_lt part
      have hcap : LittleEndian.capacity 2 = 2 ^ 16 := rfl
      rw [hlen, hcap] at hpart
      omega
    refine ⟨?_, rfl⟩
    rw [Bytes.ofHalfWord, Nat.toUInt16_eq, UInt16.toNat_ofNat', Nat.mod_eq_of_lt hlt,
      encode_of_number hlen hn]
    exact hat
  · rintro ⟨hat, rfl⟩
    exact ⟨v.toNat, _, reads_number_encode v.toNat_lt (by decide) hat, by simp, rfl⟩

theorem reads_word_bind_iff {f : UInt32 → Decoder β} {b : β} :
    (word >>= f).Reads data p b r ↔
      ∃ v, data.HoldsAt p (Bytes.ofWord v).toList ∧ (f v).Reads data (p + 4) b r := by
  simp only [reads_bind_iff, reads_word_iff]
  constructor
  · rintro ⟨v, _, ⟨h, rfl⟩, h'⟩
    exact ⟨v, h, h'⟩
  · rintro ⟨v, h, h'⟩
    exact ⟨v, _, ⟨h, rfl⟩, h'⟩

theorem reads_halfWord_bind_iff {f : UInt16 → Decoder β} {b : β} :
    (halfWord >>= f).Reads data p b r ↔
      ∃ v, data.HoldsAt p (Bytes.ofHalfWord v).toList ∧ (f v).Reads data (p + 2) b r := by
  simp only [reads_bind_iff, reads_halfWord_iff]
  constructor
  · rintro ⟨v, _, ⟨h, rfl⟩, h'⟩
    exact ⟨v, h, h'⟩
  · rintro ⟨v, h, h'⟩
    exact ⟨v, _, ⟨h, rfl⟩, h'⟩

/-! ## Counted lists -/

/-- The decoder reads the values one behind the other, the last of them up to `q`. -/
def ReadsEach (d : Decoder α) (data : Bytes) : (p : Nat) → List α → (q : Nat) → Prop
  | p, [], q => q = p
  | p, a :: rest, q => ∃ r, d.Reads data p a r ∧ ReadsEach d data r rest q

theorem reads_gatherFrom_iff {d : Decoder α} {n : Nat} {done all : Array α} :
    (gatherFrom done n d).Reads data p all q ↔
      ∃ xs : List α, xs.length = n ∧ all = done ++ xs.toArray ∧ ReadsEach d data p xs q := by
  induction n generalizing done p with
  | zero =>
    simp only [gatherFrom, reads_pure_iff]
    constructor
    · rintro ⟨rfl, rfl⟩
      exact ⟨[], rfl, by simp, rfl⟩
    · rintro ⟨xs, hlen, rfl, h⟩
      obtain rfl := List.length_eq_zero_iff.mp hlen
      exact ⟨by simp, h⟩
  | succ n ih =>
    simp only [gatherFrom, reads_bind_iff, ih]
    constructor
    · rintro ⟨a, r, h, xs, hlen, rfl, hxs⟩
      exact ⟨a :: xs, by simp [hlen], by simp, r, h, hxs⟩
    · rintro ⟨xs, hlen, rfl, hxs⟩
      cases xs with
      | nil => cases hlen
      | cons a xs =>
        obtain ⟨r, h, hxs⟩ := hxs
        exact ⟨a, r, h, xs, by simpa using hlen, by simp, hxs⟩

theorem reads_gather_iff {d : Decoder α} {n : Nat} {all : Array α} :
    (gather n d).Reads data p all q ↔ all.size = n ∧ ReadsEach d data p all.toList q := by
  rw [gather, reads_gatherFrom_iff]
  constructor
  · rintro ⟨xs, hlen, rfl, h⟩
    simpa using ⟨hlen, h⟩
  · rintro ⟨hlen, h⟩
    exact ⟨all.toList, by simpa using hlen, by simp, h⟩

theorem reads_times_iff {d : Decoder Unit} {n : Nat} {u : Unit} :
    (times n d).Reads data p u q ↔ ReadsEach d data p (List.replicate n ()) q := by
  induction n generalizing p with
  | zero => simp [times, reads_pure_iff, ReadsEach]
  | succ n ih =>
    simp only [times, reads_bind_iff, ih, List.replicate_succ, ReadsEach]
    constructor
    · rintro ⟨_, r, h⟩
      exact ⟨r, h⟩
    · rintro ⟨r, h⟩
      exact ⟨(), r, h⟩

theorem readsEach_append_iff {d : Decoder α} {xs ys : List α} :
    ReadsEach d data p (xs ++ ys) r ↔ ∃ q, ReadsEach d data p xs q ∧ ReadsEach d data q ys r := by
  induction xs generalizing p with
  | nil => simp [ReadsEach]
  | cons x xs ih =>
    simp only [List.cons_append, ReadsEach, ih]
    constructor
    · rintro ⟨s, h, q, hx, hy⟩
      exact ⟨q, ⟨s, h, hx⟩, hy⟩
    · rintro ⟨q, ⟨s, h, hx⟩, hy⟩
      exact ⟨s, h, q, hx, hy⟩

/-- Values are read where their bytes stand one behind the other, if each of them is read where its
bytes are. -/
theorem readsEach_flatMap {d : Decoder α} {encode : α → List UInt8} {xs : List α}
    (hd : ∀ x ∈ xs, ∀ p, data.HoldsAt p (encode x) → d.Reads data p x (p + (encode x).length))
    (h : data.HoldsAt p (xs.flatMap encode)) :
    ReadsEach d data p xs (p + (xs.flatMap encode).length) := by
  induction xs generalizing p with
  | nil => rfl
  | cons x xs ih =>
    rw [List.forall_mem_cons] at hd
    rw [List.flatMap_cons, Bytes.holdsAt_append] at h
    refine ⟨_, hd.1 p h.1, ?_⟩
    rw [List.flatMap_cons, List.length_append, ← Nat.add_assoc]
    exact ih hd.2 h.2

end Decoder

end DexGraph
