import DexGraph.Proofs.Bytes.Reads

/-!
# LEB128 numbers there and back

A number is read from a sequence of groups of which only the last ends it
(`Decoder.reads_unsignedLeb_iff`). The shortest form of a number is such a sequence and gives the
number back (`Decoder.reads_encodeUnsigned`, `Decoder.reads_encodeSigned`).
-/

namespace DexGraph

namespace Leb128

/-- Only the last of the groups ends the number. -/
def Terminated : List UInt8 → Prop
  | [] => False
  | [b] => isLast b
  | b :: rest => ¬ isLast b ∧ Terminated rest

theorem terminated_cons {b : UInt8} {rest : List UInt8} (h : rest ≠ []) :
    Terminated (b :: rest) ↔ ¬ isLast b ∧ Terminated rest := by
  cases rest with
  | nil => exact absurd rfl h
  | cons c rest => rfl

theorem Terminated.ne_nil {gs : List UInt8} (h : Terminated gs) : gs ≠ [] := by
  rintro rfl
  exact h

end Leb128

namespace Decoder

variable {data : Bytes} {p q : Nat}

theorem reads_groups_iff {e : Error} {limit : Nat} {gs : List UInt8} :
    (groups e limit).Reads data p gs q ↔ Leb128.Terminated gs ∧ gs.length ≤ limit ∧
      data.HoldsAt p gs ∧ q = p + gs.length := by
  induction limit generalizing p gs q with
  | zero =>
    refine iff_of_false not_reads_fail ?_
    rintro ⟨hgs, hlen, -⟩
    exact hgs.ne_nil (List.length_eq_zero_iff.mp (Nat.le_zero.mp hlen))
  | succ limit ih =>
    simp only [groups, reads_bind_iff, reads_byte_iff]
    constructor
    · rintro ⟨b, _, ⟨hb, rfl⟩, h⟩
      split at h
      · rename_i hlast
        obtain ⟨rfl, rfl⟩ := reads_pure_iff.mp h
        exact ⟨hlast, by simp, Bytes.holdsAt_singleton.mpr hb, rfl⟩
      · rename_i hlast
        obtain ⟨rest, _, hrest, hpure⟩ := reads_bind_iff.mp h
        obtain ⟨rfl, rfl⟩ := reads_pure_iff.mp hpure
        obtain ⟨hterm, hlen, hat, rfl⟩ := ih.mp hrest
        refine ⟨(Leb128.terminated_cons hterm.ne_nil).mpr ⟨hlast, hterm⟩, by simpa using hlen,
          Bytes.holdsAt_cons.mpr ⟨hb, hat⟩, ?_⟩
        rw [List.length_cons]
        omega
    · rintro ⟨hterm, hlen, hat, rfl⟩
      obtain _ | ⟨b, _ | ⟨c, rest⟩⟩ := gs
      · exact absurd rfl hterm.ne_nil
      · refine ⟨b, _, ⟨Bytes.holdsAt_singleton.mp hat, rfl⟩, ?_⟩
        rw [if_pos (show Leb128.isLast b = true from hterm)]
        exact reads_pure_iff.mpr ⟨rfl, rfl⟩
      · obtain ⟨hlast, hterm⟩ := hterm
        obtain ⟨hb, hat⟩ := Bytes.holdsAt_cons.mp hat
        refine ⟨b, _, ⟨hb, rfl⟩, ?_⟩
        rw [if_neg hlast]
        refine (ih.mpr ⟨hterm, by simpa using hlen, hat, rfl⟩).bind (reads_pure_iff.mpr ⟨rfl, ?_⟩)
        simp only [List.length_cons]
        omega

theorem reads_unsignedLeb_iff {v : UInt32} :
    unsignedLeb.Reads data p v q ↔ ∃ gs, Leb128.Terminated gs ∧ gs.length ≤ Leb128.maxGroups ∧
      data.HoldsAt p gs ∧ q = p + gs.length ∧ v = Leb128.unsigned gs := by
  simp only [unsignedLeb, reads_bind_iff, reads_position_iff, reads_groups_iff, reads_pure_iff]
  constructor
  · rintro ⟨_, _, ⟨rfl, rfl⟩, gs, _, ⟨hterm, hlen, hat, rfl⟩, rfl, rfl⟩
    exact ⟨gs, hterm, hlen, hat, rfl, rfl⟩
  · rintro ⟨gs, hterm, hlen, hat, rfl, rfl⟩
    exact ⟨_, _, ⟨rfl, rfl⟩, gs, _, ⟨hterm, hlen, hat, rfl⟩, rfl, rfl⟩

theorem reads_signedLeb_iff {v : Int32} :
    signedLeb.Reads data p v q ↔ ∃ gs, Leb128.Terminated gs ∧ gs.length ≤ Leb128.maxGroups ∧
      data.HoldsAt p gs ∧ q = p + gs.length ∧ v = Leb128.signed gs := by
  simp only [signedLeb, reads_bind_iff, reads_position_iff, reads_groups_iff, reads_pure_iff]
  constructor
  · rintro ⟨_, _, ⟨rfl, rfl⟩, gs, _, ⟨hterm, hlen, hat, rfl⟩, rfl, rfl⟩
    exact ⟨gs, hterm, hlen, hat, rfl, rfl⟩
  · rintro ⟨gs, hterm, hlen, hat, rfl, rfl⟩
    exact ⟨_, _, ⟨rfl, rfl⟩, gs, _, ⟨hterm, hlen, hat, rfl⟩, rfl, rfl⟩

end Decoder

namespace Leb128

/-! ## Groups -/

theorem isLast_iff (b : UInt8) : isLast b ↔ b.toNat < 128 := by
  have h : ∀ b : BitVec 8, (b &&& 0x80#8 == 0#8) = decide (b.toNat < 128) := by decide
  have hb := h b.toBitVec
  rw [UInt8.toNat_toBitVec] at hb
  rw [← decide_eq_true_iff (p := b.toNat < 128), ← hb, isLast, beq_iff_eq, beq_iff_eq,
    ← UInt8.toBitVec_inj]
  rfl

/-- The seven bits of a group that count. -/
theorem toNat_group (b : UInt8) : (b &&& 0x7F).toNat = b.toNat % 128 := by
  have h : ∀ b : BitVec 8, (b &&& 0x7F#8).toNat = b.toNat % 128 := by decide
  exact h b.toBitVec

/-- Setting the high bit of a group makes it one that does not end the number. -/
theorem toNat_continued (b : UInt8) :
    128 ≤ (b ||| 0x80).toNat ∧ (b ||| 0x80).toNat % 128 = b.toNat % 128 := by
  have h : ∀ b : BitVec 8, 128 ≤ (b ||| 0x80#8).toNat ∧
      (b ||| 0x80#8).toNat % 128 = b.toNat % 128 := by decide
  exact h b.toBitVec

/-- The number that a sequence of groups stands for, however many there are. -/
def number : List UInt8 → Nat
  | [] => 0
  | b :: rest => b.toNat % 128 + 128 * number rest

theorem number_lt (gs : List UInt8) : number gs < 128 ^ gs.length := by
  induction gs with
  | nil => simp [number]
  | cons b rest ih =>
    rw [number, List.length_cons, Nat.pow_succ']
    omega

theorem toNat_unsigned (gs : List UInt8) : (unsigned gs).toNat = number gs % 2 ^ 32 := by
  induction gs with
  | nil => rfl
  | cons b rest ih =>
    have hlow : (b &&& 0x7F).toUInt32.toNat = b.toNat % 128 := by
      rw [UInt8.toNat_toUInt32, toNat_group]
    have hhigh : (unsigned rest <<< 7).toNat = number rest % 2 ^ 25 * 2 ^ 7 := by
      rw [UInt32.toNat_shiftLeft, ih, Nat.shiftLeft_eq]
      change number rest % 2 ^ 32 * 2 ^ 7 % 2 ^ 32 = _
      omega
    rw [unsigned, UInt32.toNat_or, hlow, hhigh, Nat.or_comm, ← Nat.shiftLeft_eq,
      ← Nat.shiftLeft_add_eq_or_of_lt (Nat.mod_lt _ (by decide)), Nat.shiftLeft_eq, number]
    omega

/-! ## The shortest form of an unsigned number -/

theorem toNat_or_one (v : UInt32) : (v ||| 1).toNat = v.toNat ||| 1 := by
  rw [UInt32.toNat_or]
  rfl

theorem unsignedSize_of_lt {v : UInt32} (h : v.toNat < 128) : unsignedSize v = 1 := by
  have hne : v.toNat ||| 1 ≠ 0 := fun h => absurd (Nat.or_eq_zero_iff.mp h).2 (by decide)
  have hlt : (v.toNat ||| 1).log2 < 7 :=
    (Nat.log2_lt hne).mpr (Nat.or_lt_two_pow (n := 7) h (by decide))
  rw [unsignedSize, toNat_or_one]
  omega

private theorem log2_or_one {n : Nat} (h : n ≠ 0) : (n ||| 1).log2 = n.log2 := by
  rw [Nat.log2_eq_iff (fun h => absurd (Nat.or_eq_zero_iff.mp h).2 (by decide))]
  have hle : 2 ^ n.log2 ≤ n := Nat.log2_self_le h
  have hlt : n < 2 ^ (n.log2 + 1) := Nat.lt_log2_self
  exact ⟨Nat.le_trans hle Nat.left_le_or, Nat.or_lt_two_pow hlt (Nat.one_lt_two_pow (by omega))⟩

private theorem log2_div_128 {n : Nat} (h : 128 ≤ n) : n.log2 = (n / 128).log2 + 7 := by
  have hne : n / 128 ≠ 0 := by omega
  rw [Nat.log2_eq_iff (by omega)]
  have hle : 2 ^ (n / 128).log2 ≤ n / 128 := Nat.log2_self_le hne
  have hlt : n / 128 < 2 ^ ((n / 128).log2 + 1) := Nat.lt_log2_self
  have hlow : 2 ^ ((n / 128).log2 + 7) = 2 ^ (n / 128).log2 * 128 := Nat.pow_add ..
  have hhigh : 2 ^ ((n / 128).log2 + 7 + 1) = 2 ^ ((n / 128).log2 + 1) * 128 := by
    rw [Nat.add_right_comm, Nat.pow_add]
  omega

theorem unsignedSize_of_ge {v : UInt32} (h : 128 ≤ v.toNat) :
    unsignedSize v = unsignedSize (v >>> 7) + 1 := by
  have hshift : (v >>> 7).toNat = v.toNat / 128 := by
    rw [UInt32.toNat_shiftRight, Nat.shiftRight_eq_div_pow]
    rfl
  rw [unsignedSize, unsignedSize, toNat_or_one, toNat_or_one, hshift, log2_or_one (by omega),
    log2_or_one (by omega), log2_div_128 h]
  omega

theorem unsignedGroups_spec (limit : Nat) {v : UInt32} (hlimit : limit ≠ 0)
    (h : v.toNat < 128 ^ limit) :
    Terminated (unsignedGroups limit v) ∧ number (unsignedGroups limit v) = v.toNat ∧
      (unsignedGroups limit v).length ≤ limit ∧
        (unsignedGroups limit v).length = unsignedSize v := by
  induction limit generalizing v with
  | zero => exact absurd rfl hlimit
  | succ limit ih =>
    rw [unsignedGroups]
    split
    · rename_i hlt
      have hlt : v.toNat < 128 := UInt32.lt_iff_toNat_lt.mp hlt
      have hbyte : v.toUInt8.toNat = v.toNat := by
        rw [UInt32.toNat_toUInt8, Nat.mod_eq_of_lt (by omega)]
      refine ⟨(isLast_iff _).mpr (by omega), ?_, by simp, ?_⟩
      · rw [number, number, hbyte, Nat.mod_eq_of_lt hlt]
        omega
      · rw [List.length_singleton, unsignedSize_of_lt hlt]
    · rename_i hge
      have hge : 128 ≤ v.toNat := Nat.le_of_not_lt fun h => hge (UInt32.lt_iff_toNat_lt.mpr h)
      have hshift : (v >>> 7).toNat = v.toNat / 128 := by
        rw [UInt32.toNat_shiftRight, Nat.shiftRight_eq_div_pow]
        rfl
      have hlimit' : limit ≠ 0 := by
        rintro rfl
        omega
      obtain ⟨hterm, hnumber, hlen, hsize⟩ := ih (v := v >>> 7) hlimit' (by
        rw [hshift]
        rw [Nat.pow_succ'] at h
        omega)
      have hbyte : v.toUInt8.toNat % 128 = v.toNat % 128 := by
        rw [UInt32.toNat_toUInt8]
        omega
      obtain ⟨hhigh, hlow⟩ := toNat_continued v.toUInt8
      refine ⟨(terminated_cons hterm.ne_nil).mpr ⟨?_, hterm⟩, ?_, ?_, ?_⟩
      · rw [isLast_iff]
        omega
      · rw [number, hnumber, hshift, hlow, hbyte]
        omega
      · rw [List.length_cons]
        omega
      · rw [List.length_cons, hsize, unsignedSize_of_ge hge]

/-- The length of the shortest form is known beforehand. -/
theorem size_encodeUnsigned (v : UInt32) : (encodeUnsigned v).size = unsignedSize v :=
  (unsignedGroups_spec _ (by decide) (Nat.lt_trans v.toNat_lt (by decide))).2.2.2

theorem unsignedSize_pos (v : UInt32) : 0 < unsignedSize v := by
  unfold unsignedSize
  omega

theorem encodeUnsigned_size_pos (v : UInt32) : 0 < (encodeUnsigned v).size := by
  rw [size_encodeUnsigned]
  exact unsignedSize_pos v

/-! ## The shortest form of a signed number -/

private theorem toInt_shiftRight_seven (v : Int32) : (v >>> 7).toInt = v.toInt / 128 := by
  change (v.toBitVec.sshiftRight' ((7 : BitVec 32).smod 32)).toInt = _
  rw [BitVec.toInt_sshiftRight', Int.shiftRight_eq_div_pow]
  rfl

private theorem toNat_signedGroup (v : Int32) :
    ((v.toUInt32.toUInt8 &&& 0x7F).toNat : Int) = v.toInt % 128 := by
  have hword : (v.toUInt32.toNat : Int) = v.toInt % 2 ^ 32 := by
    change (v.toBitVec.toNat : Int) = v.toBitVec.toInt % 2 ^ 32
    have := v.toBitVec.isLt
    rw [BitVec.toInt_eq_toNat_cond]
    split <;> omega
  rw [toNat_group, UInt32.toNat_toUInt8]
  omega

private theorem emod_mul_128 {i m : Int} (hm : 0 < m) :
    i % (128 * m) = i % 128 + 128 * (i / 128 % m) := by
  refine ((Int.ediv_emod_unique (q := i / 128 / m) (by omega)).mpr ⟨?_, ?_, ?_⟩).2
  · have h₁ := Int.emod_add_mul_ediv i 128
    have h₂ := Int.emod_add_mul_ediv (i / 128) m
    calc i % 128 + 128 * (i / 128 % m) + 128 * m * (i / 128 / m)
        = i % 128 + 128 * (i / 128 % m + m * (i / 128 / m)) := by ring
      _ = i := by rw [h₂, h₁]
  · have := Int.emod_nonneg (i / 128) (by omega : m ≠ 0)
    omega
  · have := Int.emod_lt_of_pos (i / 128) hm
    omega

/-- One group is enough for a signed number of seven bits. -/
private theorem signed_ends_iff (v : Int32) :
    ((v >>> 7 == 0 && v.toUInt32.toUInt8 &&& 0x7F &&& 0x40 == 0) ||
      (v >>> 7 == -1 && v.toUInt32.toUInt8 &&& 0x7F &&& 0x40 != 0)) = true ↔
      -64 ≤ v.toInt ∧ v.toInt < 64 := by
  have hbit : ∀ b : BitVec 8, b &&& 0x40#8 = 0#8 ↔ b.toNat % 128 < 64 := by decide
  have hsign : v.toUInt32.toUInt8 &&& 0x7F &&& 0x40 = 0 ↔ v.toInt % 128 < 64 := by
    rw [← UInt8.toBitVec_inj]
    refine (hbit (v.toUInt32.toUInt8 &&& 0x7F).toBitVec).trans ?_
    have := toNat_signedGroup v
    rw [UInt8.toNat_toBitVec]
    omega
  have hrest (n : Int32) : (v >>> 7 == n) = true ↔ v.toInt / 128 = n.toInt := by
    rw [beq_iff_eq, ← Int32.toInt_inj, toInt_shiftRight_seven]
  rw [Bool.or_eq_true, Bool.and_eq_true, Bool.and_eq_true, hrest, hrest, beq_iff_eq, bne_iff_ne,
    ne_eq, hsign]
  change v.toInt / 128 = 0 ∧ _ ∨ v.toInt / 128 = -1 ∧ _ ↔ _
  omega

/-- What the groups of a signed number are: as many as its bits need, with those bits. -/
theorem signedGroups_spec (limit : Nat) {v : Int32}
    (hlow : -(64 * 128 ^ limit) ≤ v.toInt) (hhigh : v.toInt < 64 * 128 ^ limit) :
    ∃ k, k ≤ limit ∧ (signedGroups (limit + 1) v).length = k + 1 ∧
      Terminated (signedGroups (limit + 1) v) ∧
      (number (signedGroups (limit + 1) v) : Int) = v.toInt % 128 ^ (k + 1) ∧
      -(64 * 128 ^ k) ≤ v.toInt ∧ v.toInt < 64 * 128 ^ k := by
  have hgroup := toNat_signedGroup v
  induction limit generalizing v with
  | zero =>
    have hends : -64 ≤ v.toInt ∧ v.toInt < 64 := by simpa using ⟨hlow, hhigh⟩
    have hlast : (v.toUInt32.toUInt8 &&& 0x7F).toNat < 128 := by omega
    rw [signedGroups]
    simp only [(signed_ends_iff v).mpr hends, if_true]
    refine ⟨0, le_rfl, rfl, (isLast_iff _).mpr hlast, ?_, by simpa using hlow, by simpa using hhigh⟩
    rw [number, number, Nat.mod_eq_of_lt hlast]
    simpa using hgroup
  | succ limit ih =>
    have hlast : (v.toUInt32.toUInt8 &&& 0x7F).toNat < 128 := by omega
    rw [signedGroups]
    split
    · rename_i hends
      have hends := (signed_ends_iff v).mp hends
      refine ⟨0, Nat.zero_le _, rfl, (isLast_iff _).mpr hlast, ?_, by simpa using hends.1,
        by simpa using hends.2⟩
      rw [number, number, Nat.mod_eq_of_lt hlast]
      simpa using hgroup
    · rename_i hmore
      have hmore : ¬ (-64 ≤ v.toInt ∧ v.toInt < 64) := fun h => hmore ((signed_ends_iff v).mpr h)
      have hrest := toInt_shiftRight_seven v
      obtain ⟨hcont, hlow'⟩ := toNat_continued (v.toUInt32.toUInt8 &&& 0x7F)
      rw [Int.pow_succ] at hlow hhigh
      obtain ⟨k, hk, hlen, hterm, hnumber, hl, hh⟩ := ih (v := v >>> 7) (by omega) (by omega)
        (toNat_signedGroup _)
      refine ⟨k + 1, by omega, by rw [List.length_cons, hlen],
        (terminated_cons hterm.ne_nil).mpr ⟨?_, hterm⟩, ?_, ?_, ?_⟩
      · rw [isLast_iff]
        omega
      · rw [number, hlow', Nat.mod_eq_of_lt hlast]
        push_cast
        rw [hnumber, hgroup, hrest, Int.pow_succ _ (k + 1), mul_comm _ (128 : Int),
          emod_mul_128 (by positivity)]
      · rw [Int.pow_succ]
        omega
      · rw [Int.pow_succ]
        omega

private theorem emod_bmod_word (x : Int) :
    (x % 4294967296).bmod 4294967296 = x.bmod 4294967296 :=
  Int.emod_bmod x 4294967296

/-- Shifting to the top and back spreads the highest bit that is left. -/
private theorem toInt_spread (x : UInt32) {s : Nat} (hs : s < 32) :
    ((x <<< s.toUInt32).toInt32 >>> Int32.ofNat s).toInt =
      (x.toNat * 2 ^ s : Int).bmod (2 ^ 32) / 2 ^ s := by
  have hamount : ∀ s < 32, ((Int32.ofNat s).toBitVec.smod 32).toNat = s := by decide
  have hleft : (x <<< s.toUInt32).toNat = x.toNat * 2 ^ s % 2 ^ 32 := by
    rw [UInt32.toNat_shiftLeft, toNat_toUInt32 (by omega), Nat.mod_eq_of_lt hs, Nat.shiftLeft_eq]
  change ((x <<< s.toUInt32).toBitVec.sshiftRight' ((Int32.ofNat s).toBitVec.smod 32)).toInt = _
  rw [BitVec.toInt_sshiftRight', hamount s hs, Int.shiftRight_eq_div_pow,
    BitVec.toInt_eq_toNat_bmod, UInt32.toNat_toBitVec, hleft]
  push_cast
  rw [emod_bmod_word]

/-- A signed number is given back by its bits and its sign. -/
theorem signed_eq {v : Int32} {gs : List UInt8} {k : Nat} (hk : k ≤ 4) (hlen : gs.length = k + 1)
    (hnumber : (number gs : Int) = v.toInt % 128 ^ (k + 1)) (hlow : -(64 * 128 ^ k) ≤ v.toInt)
    (hhigh : v.toInt < 64 * 128 ^ k) : signed gs = v := by
  have hvalue := toNat_unsigned gs
  have hlt := number_lt gs
  rw [hlen] at hlt
  apply Int32.toInt_inj.mp
  unfold signed
  rw [hlen]
  by_cases hk' : k < 4
  · rw [if_pos (by omega), toInt_spread _ (by omega), hvalue]
    rw [Int.bmod]
    push_cast
    interval_cases k <;> simp only [Nat.reduceAdd, Nat.reduceMul, Nat.reduceSub] <;>
      norm_num at hlt hnumber hlow hhigh ⊢ <;> split <;> omega
  · obtain rfl : k = 4 := by omega
    rw [if_neg (by decide)]
    have hword : (unsigned gs).toInt32.toInt = (number gs : Int).bmod (2 ^ 32) := by
      change (unsigned gs).toBitVec.toInt = _
      rw [BitVec.toInt_eq_toNat_bmod, UInt32.toNat_toBitVec, hvalue]
      push_cast
      rw [emod_bmod_word]
    have hle := v.toInt_lt
    have hge := v.le_toInt
    norm_num at hnumber hle hge
    rw [hword, hnumber, Int.bmod]
    push_cast
    split <;> omega

/-- The groups of a signed number end where the number ends, and give it back. -/
theorem signedGroups_maxGroups (v : Int32) :
    Terminated (signedGroups maxGroups v) ∧ (signedGroups maxGroups v).length ≤ maxGroups ∧
      signed (signedGroups maxGroups v) = v := by
  have hle := v.toInt_lt
  have hge := v.le_toInt
  obtain ⟨k, hk, hlen, hterm, hnumber, hlow, hhigh⟩ :=
    signedGroups_spec 4 (v := v) (by omega) (by omega)
  refine ⟨hterm, ?_, signed_eq hk hlen hnumber hlow hhigh⟩
  change (signedGroups (4 + 1) v).length ≤ 5
  omega

/-- The groups of an unsigned number end where the number ends, and give it back. -/
theorem unsignedGroups_maxGroups (v : UInt32) :
    Terminated (unsignedGroups maxGroups v) ∧ (unsignedGroups maxGroups v).length ≤ maxGroups ∧
      unsigned (unsignedGroups maxGroups v) = v := by
  obtain ⟨hterm, hnumber, hlen, -⟩ := unsignedGroups_spec maxGroups (v := v)
    (by decide) (Nat.lt_trans v.toNat_lt (by decide))
  refine ⟨hterm, hlen, ?_⟩
  apply UInt32.toNat_inj.mp
  rw [toNat_unsigned, hnumber, Nat.mod_eq_of_lt v.toNat_lt]

/-! ## No form is shorter -/

/-- The shortest form of an unsigned number has no more groups than any other. -/
theorem size_encodeUnsigned_le {gs : List UInt8} (hterm : Terminated gs) :
    (encodeUnsigned (unsigned gs)).size ≤ gs.length := by
  have hpos : gs.length ≠ 0 := fun h => hterm.ne_nil (List.length_eq_zero_iff.mp h)
  have hlt : (unsigned gs).toNat < 128 ^ gs.length :=
    Nat.lt_of_le_of_lt (toNat_unsigned gs ▸ Nat.mod_le ..) (number_lt gs)
  obtain ⟨-, -, hle, hsize⟩ := unsignedGroups_spec gs.length hpos hlt
  rw [size_encodeUnsigned]
  omega

/-- A signed number takes no more groups than its bits need. -/
theorem length_signedGroups_le {k limit : Nat} {v : Int32}
    (hlow : -(64 * 128 ^ k) ≤ v.toInt) (hhigh : v.toInt < 64 * 128 ^ k) :
    (signedGroups limit v).length ≤ k + 1 := by
  induction k generalizing limit v with
  | zero =>
    have hends : -64 ≤ v.toInt ∧ v.toInt < 64 := by simpa using ⟨hlow, hhigh⟩
    cases limit with
    | zero => simp [signedGroups]
    | succ limit =>
      rw [signedGroups]
      simp [(signed_ends_iff v).mpr hends]
  | succ k ih =>
    cases limit with
    | zero => simp [signedGroups]
    | succ limit =>
      have hrest := toInt_shiftRight_seven v
      rw [Int.pow_succ] at hlow hhigh
      rw [signedGroups]
      split
      · simp
      · rw [List.length_cons]
        exact Nat.succ_le_succ (ih (by omega) (by omega))

/-- The sign of a number stands in the highest bit of its last group. -/
theorem toInt_signed_mem {gs : List UInt8} {k : Nat} (hlen : gs.length = k + 1) (hk : k < 4) :
    -(64 * 128 ^ k) ≤ (signed gs).toInt ∧ (signed gs).toInt < 64 * 128 ^ k := by
  unfold signed
  rw [hlen, if_pos (by omega), toInt_spread _ (by omega)]
  have hle : -(2 ^ 31 : Int) ≤ ((unsigned gs).toNat * 2 ^ (32 - 7 * (k + 1)) : Int).bmod (2 ^ 32) :=
    Int.le_bmod (by decide)
  have hlt : ((unsigned gs).toNat * 2 ^ (32 - 7 * (k + 1)) : Int).bmod (2 ^ 32) < 2 ^ 31 :=
    Int.bmod_lt (by decide)
  generalize ((unsigned gs).toNat * 2 ^ (32 - 7 * (k + 1)) : Int).bmod (2 ^ 32) = x at hle hlt ⊢
  interval_cases k <;> norm_num at hle hlt ⊢ <;> omega

/-- The shortest form of a signed number has no more groups than any other. -/
theorem size_encodeSigned_le {gs : List UInt8} (hterm : Terminated gs) :
    (encodeSigned (signed gs)).size ≤ gs.length := by
  change (signedGroups maxGroups (signed gs)).length ≤ _
  obtain ⟨k, hlen⟩ := Nat.exists_eq_succ_of_ne_zero fun h =>
    hterm.ne_nil (List.length_eq_zero_iff.mp h)
  by_cases hk : k < 4
  · obtain ⟨hlow, hhigh⟩ := toInt_signed_mem hlen hk
    rw [hlen]
    exact length_signedGroups_le hlow hhigh
  · have hle := (signedGroups_maxGroups (signed gs)).2.1
    change _ ≤ 5 at hle
    omega

end Leb128

namespace Decoder

variable {data : Bytes} {p q : Nat}

/-- The shortest form of an unsigned number is read back. -/
theorem reads_encodeUnsigned {v : UInt32}
    (h : data.HoldsAt p (Leb128.encodeUnsigned v).toList) :
    unsignedLeb.Reads data p v (p + (Leb128.encodeUnsigned v).size) := by
  obtain ⟨hterm, hlen, hv⟩ := Leb128.unsignedGroups_maxGroups v
  exact reads_unsignedLeb_iff.mpr ⟨_, hterm, hlen, h, rfl, hv.symm⟩

/-- The shortest form of a signed number is read back. -/
theorem reads_encodeSigned {v : Int32} (h : data.HoldsAt p (Leb128.encodeSigned v).toList) :
    signedLeb.Reads data p v (p + (Leb128.encodeSigned v).size) := by
  obtain ⟨hterm, hlen, hv⟩ := Leb128.signedGroups_maxGroups v
  exact reads_signedLeb_iff.mpr ⟨_, hterm, hlen, h, rfl, hv.symm⟩

/-- A number takes no fewer bytes than its shortest form. -/
theorem le_of_unsignedLeb {v : UInt32} (h : unsignedLeb.Reads data p v q) :
    p + (Leb128.encodeUnsigned v).toList.length ≤ q := by
  obtain ⟨gs, hterm, -, -, rfl, rfl⟩ := reads_unsignedLeb_iff.mp h
  have := Leb128.size_encodeUnsigned_le hterm
  rw [Array.length_toList]
  omega

theorem le_of_signedLeb {v : Int32} (h : signedLeb.Reads data p v q) :
    p + (Leb128.encodeSigned v).toList.length ≤ q := by
  obtain ⟨gs, hterm, -, -, rfl, rfl⟩ := reads_signedLeb_iff.mp h
  have := Leb128.size_encodeSigned_le hterm
  rw [Array.length_toList]
  omega

end Decoder

end DexGraph
