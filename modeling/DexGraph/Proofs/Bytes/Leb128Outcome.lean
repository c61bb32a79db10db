import DexGraph.Proofs.Bytes.Recovers

/-!
# What reading a LEB128 number comes to

Reading a number goes over the bytes that continue it (`Leb128.Continues`) and stops at the first
byte that does not. Which of the three outcomes there is depends on what stands there: a byte that
ends the number, the end of the data, or nothing yet within the five groups that a number may have
(`Decoder.runAt_groups`). `Leb128.Delimited` says so of a decoder, and `Leb128.Shortest` says that
a decoder undoes an encoder whose forms are the shortest; `Leb128.codec_outcome` has both of them
for the unsigned and the signed numbers.
-/

namespace DexGraph

namespace Leb128

variable {α β : Type} {data : Bytes} {p q n m : Nat}

/-- The `n` bytes from a position on are there, and none of them ends a number. -/
def Continues (data : Bytes) (p n : Nat) : Prop :=
  ∀ i < n, ∃ b, data[p + i]? = some b ∧ ¬ isLast b

/-- There is a byte at the position, and it ends a number. -/
def EndsAt (data : Bytes) (p : Nat) : Prop :=
  ∃ b, data[p]? = some b ∧ isLast b

theorem continues_zero (data : Bytes) (p : Nat) : Continues data p 0 :=
  fun _ hi => absurd hi (Nat.not_lt_zero _)

theorem Continues.cons {b : UInt8} (hb : data[p]? = some b) (hlast : ¬ isLast b)
    (h : Continues data (p + 1) n) : Continues data p (n + 1) := by
  intro i hi
  cases i with
  | zero => exact ⟨b, hb, hlast⟩
  | succ i =>
    have hi := h i (Nat.lt_of_succ_lt_succ hi)
    rwa [Nat.add_assoc, Nat.add_comm 1] at hi

/-- A number is not continued past a byte that ends it. -/
theorem Continues.le_of_endsAt (h : Continues data p m) (hend : EndsAt data (p + n)) : m ≤ n := by
  by_contra hlt
  obtain ⟨b, hb, hlast⟩ := h n (Nat.lt_of_not_le hlt)
  obtain ⟨c, hc, hlast'⟩ := hend
  obtain rfl : b = c := Option.some.inj (hb.symm.trans hc)
  exact hlast hlast'

/-- A number is not continued past the end of the data. -/
theorem Continues.le_of_size_le (h : Continues data p m) (hend : data.size ≤ p + n) : m ≤ n := by
  by_contra hlt
  obtain ⟨b, hb, -⟩ := h n (Nat.lt_of_not_le hlt)
  rw [Array.getElem?_eq_none hend] at hb
  cases hb

/-- As long as a number is continued that ends somewhere, there is more to read. -/
theorem Continues.add_lt_size (h : Continues data p m) (hend : EndsAt data (p + n)) :
    p + m < data.size := by
  have hle := h.le_of_endsAt hend
  obtain ⟨b, hb, -⟩ := hend
  have hlt := (Array.getElem?_eq_some_iff.mp hb).1
  omega

/-- Reading takes the bytes up to the first one that ends the number, of which there are at most
five. It fails without moving if the data ends before, or if all of five bytes continue. -/
structure Delimited (d : Decoder α) (unterminated : Nat → Defect) : Prop where
  ok_iff : ∀ data p q, (∃ a, d.attempt data p = (.ok a, q)) ↔
    ∃ n < maxGroups, Continues data p n ∧ EndsAt data (p + n) ∧ q = p + (n + 1)
  outOfBounds_iff : ∀ data p q, d.attempt data p = (.error .outOfBounds, q) ↔
    (∃ n < maxGroups, Continues data p n ∧ data.size ≤ p + n) ∧ q = p
  malformed_iff : ∀ data p q defect, d.attempt data p = (.error (.malformed defect), q) ↔
    Continues data p maxGroups ∧ defect = unterminated p ∧ q = p
  error_eq : ∀ data p q e, d.attempt data p = (.error e, q) →
    e = .outOfBounds ∨ ∃ defect, e = .malformed defect

/-- The decoder reads a value from its encoding, wherever this stands, and from nothing that is
shorter. The size of the encoding is known beforehand. -/
structure Shortest (d : Decoder α) (encode : α → Bytes) (size : α → Nat) : Prop where
  size_encode : ∀ v, (encode v).size = size v
  attempt_encode : ∀ v (before rest : List UInt8),
    d.attempt (before ++ (encode v).toList ++ rest).toArray before.length =
      (.ok v, before.length + size v)
  size_le : ∀ data p q v, d.attempt data p = (.ok v, q) → p + size v ≤ q

end Leb128

namespace Decoder

open Leb128

variable {α β : Type} {data : Bytes} {p q : Nat}

theorem attempt_eq_ok_iff {d : Decoder α} {a : α} :
    d.attempt data p = (.ok a, q) ↔ d.Reads data p a q := by
  rw [attempt, Reads]
  cases d.runAt data p with
  | error e => simp
  | ok out => simp [Prod.ext_iff]

theorem attempt_of_error {d : Decoder α} {e : Error} (h : d.runAt data p = .error e) :
    d.attempt data p = (.error e, p) := by
  rw [attempt, h]

theorem attempt_of_ok {d : Decoder α} {a : α} (h : d.runAt data p = .ok (a, q)) :
    d.attempt data p = (.ok a, q) :=
  attempt_eq_ok_iff.mpr h

/-- The three outcomes of reading groups. -/
theorem runAt_groups (e : Error) (limit : Nat) (data : Bytes) (p : Nat) :
    (∃ n < limit, Continues data p n ∧ EndsAt data (p + n) ∧
      ∃ gs, (groups e limit).runAt data p = .ok (gs, p + (n + 1))) ∨
    (∃ n < limit, Continues data p n ∧ data.size ≤ p + n ∧
      (groups e limit).runAt data p = .error .outOfBounds) ∨
    (Continues data p limit ∧ (groups e limit).runAt data p = .error e) := by
  induction limit generalizing p with
  | zero => exact .inr (.inr ⟨continues_zero data p, rfl⟩)
  | succ limit ih =>
    rw [groups, runAt_bind]
    cases hb : data[p]? with
    | none =>
      have hbyte : byte.runAt data p = .error .outOfBounds := by simp [byte, runAt, hb]
      rw [hbyte]
      exact .inr (.inl ⟨0, limit.succ_pos, continues_zero data p,
        Array.getElem?_eq_none_iff.mp hb, rfl⟩)
    | some b =>
      have hbyte : byte.runAt data p = .ok (b, p + 1) := by simp [byte, runAt, hb]
      rw [hbyte]
      by_cases hlast : isLast b
      · simp only [hlast, if_true]
        exact .inl ⟨0, limit.succ_pos, continues_zero data p, ⟨b, hb, hlast⟩, _, rfl⟩
      · simp only [hlast, if_false, Bool.false_eq_true]
        rw [runAt_bind]
        -- what follows the first byte decides, one position further on
        obtain ⟨n, hn, hcont, hend, gs, hgs⟩ | ⟨n, hn, hcont, hsize, herror⟩ | ⟨hcont, herror⟩ :=
          ih (p + 1)
        · rw [hgs]
          rw [Nat.add_assoc, Nat.add_comm 1] at hend
          rw [Nat.add_assoc p 1, Nat.add_comm 1 (n + 1)]
          exact .inl ⟨n + 1, Nat.succ_lt_succ hn, hcont.cons hb hlast, hend, b :: gs, rfl⟩
        · rw [herror]
          exact .inr (.inl ⟨n + 1, Nat.succ_lt_succ hn, hcont.cons hb hlast, by omega, rfl⟩)
        · rw [herror]
          exact .inr (.inr ⟨hcont.cons hb hlast, rfl⟩)

/-- Exactly one of the three outcomes is that of an attempt. -/
theorem delimited_of_cases {d : Decoder α} {unterminated : Nat → Defect}
    (hd : ∀ data p,
      (∃ n < maxGroups, Continues data p n ∧ EndsAt data (p + n) ∧
        ∃ a, d.attempt data p = (.ok a, p + (n + 1))) ∨
      (∃ n < maxGroups, Continues data p n ∧ data.size ≤ p + n ∧
        d.attempt data p = (.error .outOfBounds, p)) ∨
      (Continues data p maxGroups ∧
        d.attempt data p = (.error (.malformed (unterminated p)), p))) :
    Delimited d unterminated where
  ok_iff data p q := by
    constructor
    · rintro ⟨a, h⟩
      obtain ⟨n, hn, hcont, hend, b, hb⟩ | ⟨n, -, -, -, herror⟩ | ⟨-, herror⟩ := hd data p
      · cases hb.symm.trans h
        exact ⟨n, hn, hcont, hend, rfl⟩
      · cases herror.symm.trans h
      · cases herror.symm.trans h
    · rintro ⟨n, hn, hcont, hend, rfl⟩
      obtain ⟨m, -, hcont', hend', a, ha⟩ | ⟨m, -, hcont', hsize, -⟩ | ⟨hcont', -⟩ := hd data p
      · obtain rfl : n = m :=
          Nat.le_antisymm (hcont.le_of_endsAt hend') (hcont'.le_of_endsAt hend)
        exact ⟨a, ha⟩
      · exact absurd (hcont'.add_lt_size hend) (Nat.not_lt.mpr hsize)
      · have := hcont'.le_of_endsAt hend
        omega
  outOfBounds_iff data p q := by
    constructor
    · intro h
      obtain ⟨n, -, -, -, b, hb⟩ | ⟨n, hn, hcont, hsize, herror⟩ | ⟨-, herror⟩ := hd data p
      · cases hb.symm.trans h
      · cases herror.symm.trans h
        exact ⟨⟨n, hn, hcont, hsize⟩, rfl⟩
      · cases herror.symm.trans h
    · rintro ⟨⟨n, hn, hcont, hsize⟩, rfl⟩
      obtain ⟨m, -, hcont', hend, -⟩ | ⟨m, -, -, -, herror⟩ | ⟨hcont', -⟩ := hd data q
      · exact absurd (hcont.add_lt_size hend) (Nat.not_lt.mpr hsize)
      · exact herror
      · have := hcont'.le_of_size_le hsize
        omega
  malformed_iff data p q defect := by
    constructor
    · intro h
      obtain ⟨n, -, -, -, b, hb⟩ | ⟨n, -, -, -, herror⟩ | ⟨hcont, herror⟩ := hd data p
      · cases hb.symm.trans h
      · cases herror.symm.trans h
      · cases herror.symm.trans h
        exact ⟨hcont, rfl, rfl⟩
    · rintro ⟨hcont, rfl, rfl⟩
      obtain ⟨n, hn, -, hend, -⟩ | ⟨n, hn, -, hsize, -⟩ | ⟨-, herror⟩ := hd data q
      · have := hcont.le_of_endsAt hend
        omega
      · have := hcont.le_of_size_le hsize
        omega
      · exact herror
  error_eq data p q e h := by
    obtain ⟨n, -, -, -, b, hb⟩ | ⟨n, -, -, -, herror⟩ | ⟨-, herror⟩ := hd data p
    · cases hb.symm.trans h
    · cases herror.symm.trans h
      exact .inl rfl
    · cases herror.symm.trans h
      exact .inr ⟨_, rfl⟩

/-- A decoder that reads groups and makes a value of them. -/
theorem delimited_groups (unterminated : Nat → Defect) (f : List UInt8 → α) :
    Delimited (do
      let start ← position
      return f (← groups (.malformed (unterminated start)) maxGroups)) unterminated := by
  refine delimited_of_cases fun data p => ?_
  have hrun : Decoder.runAt (do
      let start ← position
      return f (← groups (.malformed (unterminated start)) maxGroups)) data p =
        match (groups (.malformed (unterminated p)) maxGroups).runAt data p with
        | .ok (gs, q) => .ok (f gs, q)
        | .error e => .error e := by
    have hstart : position.runAt data p = .ok (p, p) := rfl
    rw [runAt_bind, hstart]
    simp only [runAt_bind]
    cases (groups (.malformed (unterminated p)) maxGroups).runAt data p <;> rfl
  obtain ⟨n, hn, hcont, hend, gs, hgs⟩ | ⟨n, hn, hcont, hsize, herror⟩ | ⟨hcont, herror⟩ :=
    runAt_groups (.malformed (unterminated p)) maxGroups data p
  · exact .inl ⟨n, hn, hcont, hend, f gs, attempt_of_ok (by rw [hrun, hgs])⟩
  · exact .inr (.inl ⟨n, hn, hcont, hsize, attempt_of_error (by rw [hrun, herror])⟩)
  · exact .inr (.inr ⟨hcont, attempt_of_error (by rw [hrun, herror])⟩)

theorem delimited_unsignedLeb : Delimited unsignedLeb .unterminatedUnsigned :=
  delimited_groups _ unsigned

theorem delimited_signedLeb : Delimited signedLeb .unterminatedSigned :=
  delimited_groups _ signed

theorem delimited_unsignedLebMinusOne :
    Delimited unsignedLebMinusOne .unterminatedUnsigned := by
  have h := delimited_groups .unterminatedUnsigned fun gs => (unsigned gs).toInt32 - 1
  simpa only [unsignedLebMinusOne, unsignedLeb, bind_assoc, pure_bind] using h

theorem shortest_unsignedLeb : Shortest unsignedLeb encodeUnsigned unsignedSize where
  size_encode := size_encodeUnsigned
  attempt_encode v before rest := by
    have h := recovers_unsignedLeb.runAt (a := v) before rest
    have hlength : (encodeUnsigned v).toList.length = unsignedSize v := size_encodeUnsigned v
    rw [hlength] at h
    exact attempt_of_ok h
  size_le data p q v h := by
    have hle := le_of_unsignedLeb (attempt_eq_ok_iff.mp h)
    rwa [Array.length_toList, size_encodeUnsigned] at hle

theorem shortest_signedLeb : Shortest signedLeb encodeSigned signedSize where
  size_encode _ := rfl
  attempt_encode _ before rest := attempt_of_ok (recovers_signedLeb.runAt before rest)
  size_le _ _ _ _ h := le_of_signedLeb (attempt_eq_ok_iff.mp h)

end Decoder

/-- **Numbers in groups.** The encoding of an unsigned or signed number is read back from between
any other bytes, up to its own end, and from no fewer bytes. On any bytes, reading takes those up to
the first that ends a number, or fails where it stands: for want of bytes, or because five of them
end no number. -/
theorem Leb128.codec_outcome :
    Shortest Decoder.unsignedLeb encodeUnsigned unsignedSize ∧
    Shortest Decoder.signedLeb encodeSigned signedSize ∧
    Delimited Decoder.unsignedLeb .unterminatedUnsigned ∧
    Delimited Decoder.signedLeb .unterminatedSigned ∧
    Delimited Decoder.unsignedLebMinusOne .unterminatedUnsigned :=
  ⟨Decoder.shortest_unsignedLeb, Decoder.shortest_signedLeb, Decoder.delimited_unsignedLeb,
    Decoder.delimited_signedLeb, Decoder.delimited_unsignedLebMinusOne⟩

end DexGraph
