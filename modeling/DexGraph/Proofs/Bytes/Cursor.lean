import DexGraph.Bytes.Cursor
import DexGraph.Proofs.Bytes.Leb128Outcome

/-!
# Cursors stay inside

A decoder says what an operation on a cursor reads. `Cursor.Attempts` says that an operation, on a
cursor inside its byte string, comes to what an attempt of a decoder comes to: it gives the same,
moves as far, refuses with the same error and then has not moved, and never gets to a point where a
machine stops. It is shown of one operation after the other, with the words and the ranges that they
compute. As what a decoder reads lies inside the bytes, operations keep a cursor inside, so that the
next one can rely on it (`Cursor.run_disciplined`).
-/

namespace DexGraph

/-! ## Decoders -/

/-- The bytes that hold a list are those of the list. -/
theorem Bytes.HoldsAt.toList_extract {data : Bytes} {p : Nat} {part : List UInt8}
    (h : data.HoldsAt p part) (hle : p + part.length ≤ data.size) :
    (data.extract p (p + part.length)).toList = part := by
  have hpart : data.extract p (p + part.toArray.size) = part.toArray :=
    Bytes.extract_eq_of_holdsAt h hle
  exact congrArg Array.toList hpart

namespace Decoder

variable {data : Bytes} {p q : Nat}

theorem runAt_seek (data : Bytes) (target p : Nat) :
    (seek target).runAt data p =
      if target ≤ data.size then .ok ((), target) else .error .outOfBounds := rfl

theorem runAt_advance (data : Bytes) (n p : Nat) :
    (advance n).runAt data p =
      if p + n ≤ data.size then .ok ((), p + n) else .error .outOfBounds := rfl

theorem runAt_bytes (data : Bytes) (n p : Nat) :
    (bytes n).runAt data p =
      if p + n ≤ data.size then .ok (data.extract p (p + n), p + n) else .error .outOfBounds := by
  unfold bytes runAt Bytes.slice?
  by_cases h : p + n ≤ data.size
  · simp only [if_pos h]
  · simp only [if_neg h]

theorem reads_peek_iff {b : UInt8} :
    peek.Reads data p b q ↔ data[p]? = some b ∧ q = p := by
  unfold Reads runAt peek
  cases data[p]? with
  | none => simp
  | some c => simp [eq_comm]

/-- The position of the first zero is the first of those that hold one. -/
theorem zeroAmong?_eq_some_iff {count stop : Nat} :
    zeroAmong? data count p = some stop ↔ p ≤ stop ∧ stop < p + count ∧
      data[stop]? = some 0 ∧ ∀ i, p ≤ i → i < stop → data[i]? ≠ some 0 := by
  induction count generalizing p with
  | zero =>
    refine iff_of_false nofun ?_
    rintro ⟨hle, hlt, -⟩
    omega
  | succ count ih =>
    rw [zeroAmong?]
    by_cases hzero : data[p]? = some 0
    · rw [if_pos (beq_iff_eq.mpr hzero), Option.some.injEq]
      constructor
      · rintro rfl
        exact ⟨le_rfl, by omega, hzero, fun i hi hlt => by omega⟩
      · rintro ⟨hle, -, -, hfirst⟩
        by_contra hne
        exact hfirst p le_rfl (by omega) hzero
    · rw [if_neg (fun h => hzero (beq_iff_eq.mp h)), ih]
      constructor
      · rintro ⟨hle, hlt, hstop, hfirst⟩
        refine ⟨by omega, by omega, hstop, fun i hi hlt' => ?_⟩
        by_cases hip : i = p
        · rwa [hip]
        · exact hfirst i (by omega) hlt'
      · rintro ⟨hle, hlt, hstop, hfirst⟩
        have hne : stop ≠ p := by
          rintro rfl
          exact hzero hstop
        exact ⟨by omega, by omega, hstop, fun i hi => hfirst i (by omega)⟩

/-- A search among the bytes up to the end finds the zero that decoders find. -/
theorem zeroAmong?_eq_map (data : Bytes) (p : Nat) :
    zeroAmong? data (data.size - p) p =
      ((data.extract p data.size).findIdx? (· == 0)).map (p + ·) := by
  have hsize : (data.extract p data.size).size = data.size - p := by
    rw [Array.size_extract, Nat.min_self]
  cases hfind : (data.extract p data.size).findIdx? (· == 0) with
  | none =>
    rw [Array.findIdx?_eq_none_iff] at hfind
    rw [Option.map_none, Option.eq_none_iff_forall_ne_some]
    intro stop hstop
    obtain ⟨hle, hlt, hzero, -⟩ := zeroAmong?_eq_some_iff.mp hstop
    have hmem : (0 : UInt8) ∈ data.extract p data.size := by
      have hat : (data.extract p data.size)[stop - p]? = some 0 := by
        rw [Array.getElem?_extract, if_pos (by omega), Nat.add_sub_cancel' hle, hzero]
      exact Array.mem_of_getElem? hat
    exact absurd (hfind 0 hmem) (by decide)
  | some n =>
    obtain ⟨hn, hzero, hfirst⟩ := Array.findIdx?_eq_some_iff_getElem.mp hfind
    rw [Option.map_some]
    refine zeroAmong?_eq_some_iff.mpr ⟨Nat.le_add_right .., by omega, ?_, fun i hi hlt hbyte => ?_⟩
    · rw [Array.getElem_extract] at hzero
      rw [Array.getElem?_eq_getElem (by omega)]
      exact congrArg some (beq_iff_eq.mp hzero)
    · refine hfirst (i - p) (by omega) ?_
      rw [Array.getElem_extract]
      simp only [Nat.add_sub_cancel' hi]
      exact beq_iff_eq.mpr (Array.getElem?_eq_some_iff.mp hbyte).2

theorem reads_cstring_iff {part : Bytes} :
    cstring.Reads data p part q ↔
      ∃ stop, zeroAmong? data (data.size - p) p = some stop ∧
        part = data.extract p stop ∧ q = stop + 1 := by
  unfold Reads runAt cstring
  cases zeroAmong? data (data.size - p) p with
  | none => simp
  | some stop => simp [eq_comm]

/-- A number is that of the bytes that are passed over. -/
theorem number_of_reads {width n : Nat} (h : (number width).Reads data p n q) :
    q ≤ data.size ∧ q = p + width ∧ n = LittleEndian.decode (data.extract p q).toList := by
  obtain ⟨part, rfl, hat, hle, rfl, rfl⟩ := reads_number_iff.mp h
  exact ⟨hle, rfl, congrArg LittleEndian.decode (hat.toList_extract hle).symm⟩

/-- The bytes from one position up to another are those of a LEB128 number. -/
def LebBetween (data : Bytes) (p q : Nat) : Prop :=
  Leb128.Terminated (data.extract p q).toList ∧ q ≤ p + Leb128.maxGroups

theorem lebBetween_of_holdsAt {gs : List UInt8} (hterm : Leb128.Terminated gs)
    (hlen : gs.length ≤ Leb128.maxGroups) (hat : data.HoldsAt p gs) :
    p + gs.length ≤ data.size ∧ LebBetween data p (p + gs.length) ∧
      (data.extract p (p + gs.length)).toList = gs := by
  have hle := hat.add_length_le hterm.ne_nil
  have hpart := hat.toList_extract hle
  exact ⟨hle, ⟨hpart.symm ▸ hterm, Nat.add_le_add_left hlen p⟩, hpart⟩

theorem unsignedLeb_of_reads {v : UInt32} (h : unsignedLeb.Reads data p v q) :
    q ≤ data.size ∧ LebBetween data p q ∧ v = Leb128.unsigned (data.extract p q).toList := by
  obtain ⟨gs, hterm, hlen, hat, rfl, rfl⟩ := reads_unsignedLeb_iff.mp h
  obtain ⟨hle, hleb, hpart⟩ := lebBetween_of_holdsAt hterm hlen hat
  exact ⟨hle, hleb, congrArg Leb128.unsigned hpart.symm⟩

theorem signedLeb_of_reads {v : Int32} (h : signedLeb.Reads data p v q) :
    q ≤ data.size ∧ LebBetween data p q ∧ v = Leb128.signed (data.extract p q).toList := by
  obtain ⟨gs, hterm, hlen, hat, rfl, rfl⟩ := reads_signedLeb_iff.mp h
  obtain ⟨hle, hleb, hpart⟩ := lebBetween_of_holdsAt hterm hlen hat
  exact ⟨hle, hleb, congrArg Leb128.signed hpart.symm⟩

end Decoder

namespace Cursor

variable {α β : Type} {c c' : Cursor}

/-- The position is not past the end. -/
def Inside (c : Cursor) : Prop :=
  c.position.toNat ≤ c.data.size

/-- The cursor at another position of the same bytes. -/
def moved (c : Cursor) (position : Nat) : Cursor :=
  { c with position := position.toUInt64 }

/-- What an operation on a cursor comes to that comes to what an attempt on its bytes does. -/
def settle (c : Cursor) : Except Error α × Nat → EStateM.Result Failure Cursor α
  | (.ok a, stop) => .ok a (c.moved stop)
  | (.error e, stop) => .error (.refused e) (c.moved stop)

/-- On a cursor inside, the operation comes to what an attempt of the decoder comes to. -/
def Attempts (m : Action α) (d : Decoder α) : Prop :=
  ∀ c : Cursor, c.Inside → m c = c.settle (d.attempt c.data c.position.toNat)

/-! ## Words -/

theorem toNat_toUInt64 {n : Nat} (h : n < 2 ^ 64) : n.toUInt64.toNat = n := by
  rw [Nat.toUInt64_eq, UInt64.toNat_ofNat_of_lt' h]

@[simp] theorem toNat_length (c : Cursor) : c.length.toNat = c.data.size :=
  toNat_toUInt64 c.size_lt

theorem moved_position (c : Cursor) : c.moved c.position.toNat = c := by
  unfold moved
  rw [Nat.toUInt64_eq, UInt64.ofNat_toNat]

theorem toNat_position_moved {n : Nat} (h : n ≤ c.data.size) :
    (c.moved n).position.toNat = n :=
  toNat_toUInt64 (h.trans_lt c.size_lt)

theorem moved_of_toNat {position : UInt64} {n : Nat} (h : position.toNat = n) :
    { c with position := position } = c.moved n := by
  rw [moved, ← h, Nat.toUInt64_eq, UInt64.ofNat_toNat]

theorem sum?_of_lt {a b : UInt64} (h : a.toNat + b.toNat < 2 ^ 64) : sum? a b = some (a + b) :=
  if_pos h

theorem toNat_add_of_lt {a b : UInt64} (h : a.toNat + b.toNat < 2 ^ 64) :
    (a + b).toNat = a.toNat + b.toNat := by
  rw [UInt64.toNat_add, Nat.mod_eq_of_lt h]

/-- The sum of a position and a count, if it is a word, is that of the numbers; if it is none, the
sum of the numbers is past the end. -/
theorem sum?_position (c : Cursor) (count : UInt64) :
    (∃ stop : UInt64, sum? c.position count = some stop ∧
      stop.toNat = c.position.toNat + count.toNat) ∨
    (sum? c.position count = none ∧ c.data.size < c.position.toNat + count.toNat) := by
  by_cases h : c.position.toNat + count.toNat < 2 ^ 64
  · exact .inl ⟨_, sum?_of_lt h, toNat_add_of_lt h⟩
  · have hsize : c.data.size < 2 ^ 64 := c.size_lt
    exact .inr ⟨if_neg h, by omega⟩

theorem le_length_iff {p : UInt64} : p ≤ c.length ↔ p.toNat ≤ c.data.size := by
  rw [UInt64.le_iff_toNat_le, toNat_length]

theorem length_lt_iff {p : UInt64} : c.length < p ↔ c.data.size < p.toNat := by
  rw [UInt64.lt_iff_toNat_lt, toNat_length]

/-! ## Running operations -/

theorem run_get_bind (f : Cursor → Action α) (c : Cursor) : (get >>= f) c = f c c := rfl

theorem run_moveTo_bind (p : UInt64) (f : Unit → Action α) (c : Cursor) :
    (moveTo p >>= f) c = f () { c with position := p } := rfl

theorem run_bind_of_ok {m : Action α} {f : α → Action β} {a : α} (h : m c = .ok a c') :
    (m >>= f) c = f a c' := by
  change EStateM.bind m f c = _
  rw [EStateM.bind, h]

theorem run_bind_of_error {m : Action α} {f : α → Action β} {e : Failure}
    (h : m c = .error e c') : (m >>= f) c = .error e c' := by
  change EStateM.bind m f c = _
  rw [EStateM.bind, h]

theorem run_refuse (e : Error) (c : Cursor) :
    (refuse e : Action α) c = c.settle (.error e, c.position.toNat) := by
  rw [settle, moved_position]
  rfl

/-- A sum that is not past the end is a word. -/
theorem run_sum {a b : UInt64} (h : a.toNat + b.toNat ≤ c.data.size) :
    sum a b c = .ok (a + b) c := by
  have hsize : c.data.size < 2 ^ 64 := c.size_lt
  rw [sum, sum?_of_lt (by omega)]
  rfl

theorem run_difference {a b : UInt64} (h : b ≤ a) (c : Cursor) :
    difference a b c = .ok (a - b) c := by
  rw [difference, if_pos h]
  rfl

theorem run_remainder {a b : UInt64} (h : 0 < b.toNat) (c : Cursor) :
    remainder a b c = .ok (a % b) c := by
  rw [remainder, if_neg (by rintro rfl; exact absurd h (by decide))]
  rfl

/-- A range that lies inside can be taken. -/
theorem run_range {start stop : UInt64} (h : start.toNat ≤ stop.toNat)
    (h' : stop.toNat ≤ c.data.size) :
    range start stop c = .ok (c.data.extract start.toNat stop.toNat) c := by
  have hrange : start ≤ stop ∧ stop ≤ c.length :=
    ⟨UInt64.le_iff_toNat_le.mpr h, le_length_iff.mpr h'⟩
  rw [range, run_get_bind, if_pos hrange]
  rfl

/-- An operation that only makes something of what another one gives. -/
theorem Attempts.map {m : Action α} {d : Decoder α} (h : Attempts m d) (f : α → β) :
    Attempts (do return f (← m)) (do return f (← d)) := by
  intro c hc
  have hm := h c hc
  rw [Decoder.attempt] at hm ⊢
  rw [Decoder.runAt_bind]
  cases hd : d.runAt c.data c.position.toNat with
  | ok out =>
    rw [hd] at hm
    rw [run_bind_of_ok hm]
    rfl
  | error e =>
    rw [hd] at hm
    rw [run_bind_of_error hm]
    rfl

/-! ## Moving -/

theorem attempts_seek (target : UInt64) : Attempts (seek target) (Decoder.seek target.toNat) := by
  intro c hc
  rw [seek, run_get_bind, Decoder.attempt, Decoder.runAt_seek]
  by_cases h : target.toNat ≤ c.data.size
  · rw [if_neg (by rw [gt_iff_lt, length_lt_iff]; omega), if_pos h]
    exact congrArg (EStateM.Result.ok ()) (moved_of_toNat rfl)
  · rw [if_pos (by rw [gt_iff_lt, length_lt_iff]; omega), if_neg h]
    exact run_refuse _ c

theorem attempts_advance (count : UInt64) :
    Attempts (advance count) (Decoder.advance count.toNat) := by
  intro c hc
  rw [advance, run_get_bind, Decoder.attempt, Decoder.runAt_advance]
  obtain ⟨stop, hsum, hstop⟩ | ⟨hsum, hpast⟩ := sum?_position c count
  · rw [hsum, ← hstop]
    by_cases h : stop.toNat ≤ c.data.size
    · simp only [if_pos h, if_pos (le_length_iff.mpr h)]
      exact congrArg (EStateM.Result.ok ()) (moved_of_toNat rfl)
    · simp only [if_neg h, if_neg (mt le_length_iff.mp h)]
      exact run_refuse _ c
  · rw [hsum, if_neg (Nat.not_le.mpr hpast)]
    exact run_refuse _ c

theorem attempts_align {alignment : UInt64} (h : 0 < alignment.toNat) :
    Attempts (align alignment) (Decoder.align alignment.toNat) := by
  intro c hc
  have hmod := UInt64.toNat_mod c.position alignment
  have hle : c.position % alignment ≤ alignment := by
    rw [UInt64.le_iff_toNat_le, hmod]
    exact (Nat.mod_lt _ h).le
  have hpadding : ((alignment - c.position % alignment) % alignment).toNat =
      (alignment.toNat - c.position.toNat % alignment.toNat) % alignment.toNat := by
    rw [UInt64.toNat_mod, UInt64.toNat_sub_of_le _ _ hle, hmod]
  have hadvance := attempts_advance ((alignment - c.position % alignment) % alignment) c hc
  rw [hpadding] at hadvance
  rw [align, run_get_bind, run_bind_of_ok (run_remainder h c),
    run_bind_of_ok (run_difference hle c), run_bind_of_ok (run_remainder h c), hadvance]
  rfl

/-! ## Reading -/

theorem attempts_peek : Attempts peek Decoder.peek := by
  intro c hc
  rw [peek, run_get_bind]
  unfold Decoder.attempt Decoder.runAt Decoder.peek
  cases c.data[c.position.toNat]? with
  | some b => exact congrArg (EStateM.Result.ok b) (moved_position c).symm
  | none => exact run_refuse _ c

theorem attempts_field (width : UInt64) : Attempts (field width) (Decoder.bytes width.toNat) := by
  intro c hc
  rw [field, run_get_bind, Decoder.attempt, Decoder.runAt_bytes]
  obtain ⟨stop, hsum, hstop⟩ | ⟨hsum, hpast⟩ := sum?_position c width
  · rw [hsum, ← hstop]
    by_cases h : stop.toNat ≤ c.data.size
    · have hpart : (c.data.extract c.position.toNat stop.toNat).size = width.toNat := by
        rw [Array.size_extract]
        omega
      simp only [if_pos h, if_neg (Nat.not_lt.mpr h), gt_iff_lt, length_lt_iff]
      rw [run_bind_of_ok (run_range (by omega) h), if_pos hpart, run_moveTo_bind]
      exact congrArg (EStateM.Result.ok _) (moved_of_toNat rfl)
    · simp only [if_neg h, if_pos (Nat.lt_of_not_le h), gt_iff_lt, length_lt_iff]
      exact run_refuse _ c
  · rw [hsum, if_neg (Nat.not_le.mpr hpast)]
    exact run_refuse _ c

theorem attempts_number (width : UInt64) :
    Attempts (number width) (Decoder.number width.toNat) :=
  (attempts_field width).map fun part => LittleEndian.decode part.toList

theorem attempts_signedNumber (width : UInt64) :
    Attempts (signedNumber width) (Decoder.signedNumber width.toNat) :=
  (attempts_number width).map fun n => LittleEndian.signed width.toNat n

theorem attempts_bytes (length : UInt64) :
    Attempts (bytes length) (Decoder.bytes length.toNat) := by
  intro c hc
  have hadvance := attempts_advance length c hc
  rw [Decoder.attempt, Decoder.runAt_advance] at hadvance
  rw [bytes, run_get_bind, Decoder.attempt, Decoder.runAt_bytes]
  by_cases h : c.position.toNat + length.toNat ≤ c.data.size
  · rw [if_pos h] at hadvance ⊢
    have hstop := toNat_position_moved h
    -- the range starts where the cursor was and ends where it is now
    rw [run_bind_of_ok hadvance, run_get_bind,
      run_range (by rw [hstop]; exact Nat.le_add_right ..) (by rw [hstop]; exact h), hstop]
    rfl
  · rw [if_neg h] at hadvance ⊢
    rw [run_bind_of_error hadvance]
    rfl

/-! ## LEB128 numbers -/

theorem shiftLeft_seven (bits : UInt32) {index : Nat} (h : index < 4) :
    bits <<< 7 <<< (7 * index).toUInt32 = bits <<< (7 * (index + 1)).toUInt32 := by
  interval_cases index <;> exact (UInt32.shiftLeft_add (by decide) (by decide) (by decide)).symm

/-- The bits of a number that begins with a group that is not its last. -/
theorem or_unsigned_cons (bits : UInt32) (b : UInt8) (gs : List UInt8) {index : Nat}
    (h : index < 4) :
    bits ||| (Leb128.unsigned (b :: gs) <<< (7 * index).toUInt32) =
      bits ||| ((b &&& 0x7F).toUInt32 <<< (7 * index).toUInt32) |||
        (Leb128.unsigned gs <<< (7 * (index + 1)).toUInt32) := by
  rw [Leb128.unsigned, UInt32.shiftLeft_or, shiftLeft_seven _ h, UInt32.or_assoc]

/-- Groups are read as decoders do it, with the bits put together on the way. The cursor is still
where the number starts. -/
theorem groups_eq (unterminated : Nat → Defect) (left index : Nat) {next : UInt64} (bits : UInt32)
    (hnext : next.toNat ≤ c.data.size) (hindex : index + left = Leb128.maxGroups) :
    groups unterminated left index next bits c =
      match (Decoder.groups (.malformed (unterminated c.position.toNat)) left).runAt c.data
          next.toNat with
      | .ok (gs, stop) => .ok (bits ||| (Leb128.unsigned gs <<< (7 * index).toUInt32),
          index + gs.length) (c.moved stop)
      | .error e => .error (.refused e) c := by
  induction left generalizing index next bits with
  | zero => rfl
  | succ left ih =>
    rw [groups, run_get_bind, Decoder.groups, Decoder.runAt_bind]
    cases hb : c.data[next.toNat]? with
    | none =>
      have hbyte : Decoder.byte.runAt c.data next.toNat = .error .outOfBounds := by
        unfold Decoder.runAt Decoder.byte
        rw [hb]
      rw [hbyte]
      rfl
    | some b =>
      have hbyte : Decoder.byte.runAt c.data next.toNat = .ok (b, next.toNat + 1) :=
        Decoder.reads_byte_iff.mpr ⟨hb, rfl⟩
      have hlt := (Array.getElem?_eq_some_iff.mp hb).1
      have hsize : c.data.size < 2 ^ 64 := c.size_lt
      have hone : next.toNat + (1 : UInt64).toNat = next.toNat + 1 := rfl
      have hnext' : (next + 1).toNat = next.toNat + 1 := toNat_add_of_lt (by omega)
      simp only [hbyte]
      rw [run_bind_of_ok (run_sum (by rw [hone]; omega))]
      by_cases hlast : Leb128.isLast b
      · have hunsigned : Leb128.unsigned [b] = (b &&& 0x7F).toUInt32 := by
          rw [Leb128.unsigned, Leb128.unsigned, UInt32.zero_shiftLeft, UInt32.or_zero]
        rw [if_pos hlast, if_pos hlast, run_moveTo_bind, moved_of_toNat hnext', ← hunsigned]
        rfl
      · rw [if_neg hlast, if_neg hlast, ih (index + 1) _ (by omega) (by omega), hnext',
          Decoder.runAt_bind]
        cases hgroups : (Decoder.groups (.malformed (unterminated c.position.toNat)) left).runAt
            c.data (next.toNat + 1) with
        | error e => rfl
        | ok out =>
          obtain ⟨gs, stop⟩ := out
          -- some group is still allowed, so the shift stays within the word
          have hleft : left ≠ 0 := by
            rintro rfl
            cases hgroups
          have hfour : index < 4 := by
            have hmax : Leb128.maxGroups = 5 := rfl
            omega
          simp only [← or_unsigned_cons bits b gs hfour]
          have hcount : index + 1 + gs.length = index + (b :: gs).length := by
            rw [List.length_cons]
            omega
          rw [hcount]
          rfl

/-- A number is made of the bits of its groups and of how many there are. -/
theorem attempts_groups (unterminated : Nat → Defect) (f : UInt32 → Nat → α) :
    Attempts
      (do
        let (bits, count) ← groups unterminated Leb128.maxGroups 0 (← get).position 0
        return f bits count)
      (do
        let start ← Decoder.position
        let gs ← Decoder.groups (.malformed (unterminated start)) Leb128.maxGroups
        return f (Leb128.unsigned gs) gs.length) := by
  intro c hc
  have hgroups := groups_eq unterminated Leb128.maxGroups 0 0 hc (Nat.zero_add _)
  have hstart : Decoder.position.runAt c.data c.position.toNat =
      .ok (c.position.toNat, c.position.toNat) := rfl
  rw [run_get_bind, Decoder.attempt, Decoder.runAt_bind, hstart]
  simp only
  rw [Decoder.runAt_bind]
  cases hd : (Decoder.groups (.malformed (unterminated c.position.toNat)) Leb128.maxGroups).runAt
      c.data c.position.toNat with
  | error e =>
    rw [hd] at hgroups
    rw [run_bind_of_error hgroups]
    exact congrArg (EStateM.Result.error _) (moved_position c).symm
  | ok out =>
    obtain ⟨gs, stop⟩ := out
    have hbits : (0 : UInt32) ||| (Leb128.unsigned gs <<< (7 * 0).toUInt32) =
        Leb128.unsigned gs := by
      rw [UInt32.zero_or]
      exact UInt32.shiftLeft_zero
    rw [hd] at hgroups
    simp only [hbits, Nat.zero_add] at hgroups
    rw [run_bind_of_ok hgroups]
    rfl

theorem attempts_unsignedLeb : Attempts unsignedLeb Decoder.unsignedLeb :=
  attempts_groups _ fun bits _ => bits

theorem attempts_signedLeb : Attempts signedLeb Decoder.signedLeb :=
  attempts_groups _ signExtend

theorem attempts_unsignedLebMinusOne :
    Attempts unsignedLebMinusOne Decoder.unsignedLebMinusOne :=
  attempts_unsignedLeb.map fun v => v.toInt32 - 1

/-! ## Strings -/

theorem attempts_cstring : Attempts cstring Decoder.cstring := by
  intro c hc
  have hlength := toNat_length c
  have hzero := Decoder.zeroAmong?_eq_map c.data c.position.toNat
  rw [cstring, run_get_bind, run_bind_of_ok (run_range (hlength.symm ▸ hc) hlength.le), hlength]
  unfold Decoder.attempt Decoder.runAt Decoder.cstring
  cases hfind : (c.data.extract c.position.toNat c.data.size).findIdx? (· == 0) with
  | none =>
    rw [hfind, Option.map_none] at hzero
    rw [hzero]
    exact run_refuse _ c
  | some n =>
    rw [hfind, Option.map_some] at hzero
    obtain ⟨hn, -⟩ := Array.findIdx?_eq_some_iff_getElem.mp hfind
    rw [Array.size_extract, Nat.min_self] at hn
    have hsize : c.data.size < 2 ^ 64 := c.size_lt
    have hword : n.toUInt64.toNat = n := toNat_toUInt64 (by omega)
    have hone : (1 : UInt64).toNat = 1 := rfl
    have hstop : (c.position + n.toUInt64).toNat = c.position.toNat + n := by
      rw [toNat_add_of_lt (by omega), hword]
    have hnext : (c.position + n.toUInt64 + 1).toNat = c.position.toNat + n + 1 := by
      rw [toNat_add_of_lt (by omega), hstop, hone]
    have hrange : range c.position (c.position + n.toUInt64) (c.moved (c.position.toNat + n + 1)) =
        .ok (c.data.extract c.position.toNat (c.position.toNat + n))
          (c.moved (c.position.toNat + n + 1)) := by
      rw [← hstop]
      refine run_range ?_ ?_
      · omega
      · change _ ≤ c.data.size
        omega
    -- neither the zero nor what follows it is past the end, so that both sums are words
    rw [hzero]
    simp only
    rw [run_bind_of_ok (run_sum (by omega)), run_bind_of_ok (run_sum (by omega)), run_moveTo_bind,
      moved_of_toNat hnext, hrange]
    rfl

/-! ## Operations in sequence -/

/-- The decoder that says what an operation reads. -/
def Step.decoder : (step : Step) → Decoder step.Result
  | .seek target => Decoder.seek target.toNat
  | .advance count => Decoder.advance count.toNat
  | .align exponent => Decoder.align (2 ^ exponent.val)
  | .peek => Decoder.peek
  | .number width => Decoder.number width.bytes.toNat
  | .signedNumber width => Decoder.signedNumber width.bytes.toNat
  | .unsignedLeb => Decoder.unsignedLeb
  | .signedLeb => Decoder.signedLeb
  | .unsignedLebMinusOne => Decoder.unsignedLebMinusOne
  | .bytes length => Decoder.bytes length.toNat
  | .cstring => Decoder.cstring

theorem attempts_perform (step : Step) : Attempts (perform step) step.decoder := by
  cases step with
  | seek target => exact attempts_seek target
  | advance count => exact attempts_advance count
  | align exponent =>
    have hword : (1 <<< exponent.val).toUInt64.toNat = 2 ^ exponent.val := by
      rw [Nat.one_shiftLeft]
      exact toNat_toUInt64 (Nat.pow_lt_pow_right (by decide) exponent.isLt)
    have hpos : 0 < (1 <<< exponent.val).toUInt64.toNat := by
      rw [hword]
      exact Nat.two_pow_pos _
    have h := attempts_align hpos
    rwa [hword] at h
  | peek => exact attempts_peek
  | number width => exact attempts_number width.bytes
  | signedNumber width => exact attempts_signedNumber width.bytes
  | unsignedLeb => exact attempts_unsignedLeb
  | signedLeb => exact attempts_signedLeb
  | unsignedLebMinusOne => exact attempts_unsignedLebMinusOne
  | bytes length => exact attempts_bytes length
  | cstring => exact attempts_cstring

/-- What an operation gives is what stands between where it starts and where it stops. -/
def Step.Gives (data : Bytes) (start stop : Nat) : (step : Step) → step.Result → Prop
  | .seek target, _ => stop = target.toNat
  | .advance count, _ => stop = start + count.toNat
  | .align exponent, _ => 2 ^ exponent.val ∣ stop ∧ start ≤ stop ∧ stop < start + 2 ^ exponent.val
  | .peek, b => stop = start ∧ data[start]? = some b
  | .number width, n =>
    stop = start + width.bytes.toNat ∧ n = LittleEndian.decode (data.extract start stop).toList
  | .signedNumber width, v =>
    stop = start + width.bytes.toNat ∧
      v = LittleEndian.signed width.bytes.toNat
        (LittleEndian.decode (data.extract start stop).toList)
  | .unsignedLeb, v =>
    Decoder.LebBetween data start stop ∧ v = Leb128.unsigned (data.extract start stop).toList
  | .signedLeb, v =>
    Decoder.LebBetween data start stop ∧ v = Leb128.signed (data.extract start stop).toList
  | .unsignedLebMinusOne, v =>
    Decoder.LebBetween data start stop ∧
      v = (Leb128.unsigned (data.extract start stop).toList).toInt32 - 1
  | .bytes length, part => stop = start + length.toNat ∧ part = data.extract start stop
  | .cstring, (part : Bytes) => data.extract start stop = part.push 0 ∧ 0 ∉ part

/-- The padding up to the next multiple of a number. -/
theorem dvd_add_padding (p : Nat) {k : Nat} (hk : 0 < k) : k ∣ p + (k - p % k) % k := by
  have hdiv := Nat.mod_add_div p k
  have hlt := Nat.mod_lt p hk
  by_cases hzero : p % k = 0
  · rw [hzero, Nat.sub_zero, Nat.mod_self]
    exact Nat.dvd_of_mod_eq_zero hzero
  · rw [Nat.mod_eq_of_lt (show k - p % k < k by omega)]
    refine ⟨p / k + 1, ?_⟩
    rw [Nat.mul_add]
    omega

/-- What an operation reads lies inside the bytes and is what it gives. -/
theorem gives_of_reads {step : Step} {data : Bytes} {p q : Nat} {r : step.Result}
    (h : step.decoder.Reads data p r q) (hp : p ≤ data.size) :
    q ≤ data.size ∧ step.Gives data p q r := by
  cases step with
  | seek target =>
    obtain ⟨hle, rfl⟩ := Decoder.reads_seek_iff.mp h
    exact ⟨hle, rfl⟩
  | advance count =>
    obtain ⟨hle, rfl⟩ := Decoder.reads_advance_iff.mp h
    exact ⟨hle, rfl⟩
  | align exponent =>
    obtain ⟨_, _, hposition, hadvance⟩ := Decoder.reads_bind_iff.mp h
    obtain ⟨rfl, rfl⟩ := Decoder.reads_position_iff.mp hposition
    obtain ⟨hle, rfl⟩ := Decoder.reads_advance_iff.mp hadvance
    have hpos := Nat.two_pow_pos exponent.val
    exact ⟨hle, dvd_add_padding _ hpos, Nat.le_add_right ..,
      Nat.add_lt_add_left (Nat.mod_lt _ hpos) _⟩
  | peek =>
    obtain ⟨hb, rfl⟩ := Decoder.reads_peek_iff.mp h
    exact ⟨hp, rfl, hb⟩
  | number width => exact Decoder.number_of_reads h
  | signedNumber width =>
    obtain ⟨n, _, hn, hpure⟩ := Decoder.reads_bind_iff.mp h
    obtain ⟨rfl, rfl⟩ := Decoder.reads_pure_iff.mp hpure
    obtain ⟨hle, rfl, rfl⟩ := Decoder.number_of_reads hn
    exact ⟨hle, rfl, rfl⟩
  | unsignedLeb => exact Decoder.unsignedLeb_of_reads h
  | signedLeb => exact Decoder.signedLeb_of_reads h
  | unsignedLebMinusOne =>
    obtain ⟨u, _, hu, hpure⟩ := Decoder.reads_bind_iff.mp h
    obtain ⟨rfl, rfl⟩ := Decoder.reads_pure_iff.mp hpure
    obtain ⟨hle, hleb, rfl⟩ := Decoder.unsignedLeb_of_reads hu
    exact ⟨hle, hleb, rfl⟩
  | bytes length =>
    obtain ⟨hat, hsize, hle, rfl⟩ := Decoder.reads_bytes_iff.mp h
    have hpart := Bytes.extract_eq_of_holdsAt hat (hsize.symm ▸ hle)
    rw [hsize] at hpart
    exact ⟨hle, rfl, hpart.symm⟩
  | cstring =>
    obtain ⟨stop, hstop, rfl, rfl⟩ := Decoder.reads_cstring_iff.mp h
    obtain ⟨hle, hlt, hzero, hfirst⟩ := Decoder.zeroAmong?_eq_some_iff.mp hstop
    obtain ⟨hsize, hbyte⟩ := Array.getElem?_eq_some_iff.mp hzero
    refine ⟨hsize, ?_, fun hmem => ?_⟩
    · rw [← hbyte, Array.push_extract_getElem hsize, Nat.min_eq_left hle]
    · obtain ⟨i, hi, hbyte⟩ := Array.mem_iff_getElem.mp hmem
      rw [Array.size_extract] at hi
      rw [Array.getElem_extract] at hbyte
      exact hfirst (p + i) (Nat.le_add_right ..) (by omega)
        (Array.getElem?_eq_some_iff.mpr ⟨by omega, hbyte⟩)

/-- What is promised of an operation on a cursor. -/
structure Disciplined (c : Cursor) (step : Step) : Prop where
  /-- The position is not past the end when the operation starts, so that it is known how many
  bytes are left. -/
  inside : c.Inside
  remaining_eq : c.remaining.toNat = c.data.size - c.position.toNat
  hasMore_iff : c.hasMore ↔ c.position.toNat < c.data.size
  /-- If it succeeds, the position is not past the end either, and what it gives stands between the
  two positions. -/
  ok : ∀ r c', perform step c = .ok r c' → c'.data = c.data ∧ c'.Inside ∧
    step.Gives c.data c.position.toNat c'.position.toNat r
  /-- If it fails, it refuses and leaves the cursor as it is: no sum and no range that it needs is
  out of bounds. -/
  error : ∀ f c', perform step c = .error f c' → (∃ e, f = .refused e) ∧ c' = c
  /-- It does what an attempt of the decoder does. -/
  perform_eq : perform step c = c.settle (step.decoder.attempt c.data c.position.toNat)

/-- An operation on a cursor inside refuses and leaves it as it is, or reads what the decoder
reads. -/
theorem perform_cases (h : c.Inside) (step : Step) :
    (∃ r q, step.decoder.Reads c.data c.position.toNat r q ∧ perform step c = .ok r (c.moved q)) ∨
    ∃ e, perform step c = .error (.refused e) c := by
  have hperform := attempts_perform step c h
  rw [Decoder.attempt] at hperform
  cases hd : step.decoder.runAt c.data c.position.toNat with
  | ok out =>
    rw [hd] at hperform
    exact .inl ⟨out.1, out.2, hd, hperform⟩
  | error e =>
    rw [hd, settle, moved_position] at hperform
    exact .inr ⟨e, hperform⟩

theorem Inside.disciplined (h : c.Inside) (step : Step) : c.Disciplined step where
  inside := h
  remaining_eq := by
    have hle : c.position ≤ c.length := le_length_iff.mpr h
    rw [remaining, if_pos hle, UInt64.toNat_sub_of_le _ _ hle, toNat_length]
  hasMore_iff := by
    rw [hasMore, decide_eq_true_iff, UInt64.lt_iff_toNat_lt, toNat_length]
  ok r c' hok := by
    obtain ⟨r', q, hread, hperform⟩ | ⟨e, hperform⟩ := perform_cases h step
    · cases hperform.symm.trans hok
      obtain ⟨hle, hgives⟩ := gives_of_reads hread h
      rw [Inside, toNat_position_moved hle]
      exact ⟨rfl, hle, hgives⟩
    · cases hperform.symm.trans hok
  error f c' herror := by
    obtain ⟨r', q, -, hperform⟩ | ⟨e, hperform⟩ := perform_cases h step
    · cases hperform.symm.trans herror
    · cases hperform.symm.trans herror
      exact ⟨⟨e, rfl⟩, rfl⟩
  perform_eq := attempts_perform step c h

/-- An operation keeps a cursor inside, whether it succeeds or not. -/
theorem Inside.after (h : c.Inside) (step : Step) :
    (c.after step).Inside ∧ (c.after step).data = c.data := by
  rw [Cursor.after]
  cases hperform : perform step c with
  | ok r c' =>
    obtain ⟨hdata, hinside, -⟩ := (h.disciplined step).ok r c' hperform
    exact ⟨hinside, hdata⟩
  | error f c' =>
    obtain ⟨-, rfl⟩ := (h.disciplined step).error f c' hperform
    exact ⟨h, rfl⟩

theorem Inside.run (h : c.Inside) (steps : List Step) :
    (c.run steps).Inside ∧ (c.run steps).data = c.data := by
  induction steps generalizing c with
  | nil => exact ⟨h, rfl⟩
  | cons step steps ih =>
    obtain ⟨hstep, hdata⟩ := h.after step
    obtain ⟨hrun, hdata'⟩ := ih hstep
    exact ⟨hrun, hdata'.trans hdata⟩

theorem inside_atStart (data : Bytes) (h : data.size < UInt64.size) : (atStart data h).Inside :=
  Nat.zero_le _

theorem atPosition_eq (data : Bytes) (h : data.size < UInt64.size) (p : UInt64) :
    atPosition data h p =
      if p.toNat ≤ data.size then .ok ⟨data, h, p⟩ else .error (.refused .outOfBounds) := by
  have hseek := attempts_seek p (atStart data h) (inside_atStart data h)
  have hdata : (atStart data h).data = data := rfl
  rw [Decoder.attempt, Decoder.runAt_seek, hdata] at hseek
  rw [atPosition, hseek]
  by_cases hp : p.toNat ≤ data.size
  · rw [if_pos hp, if_pos hp]
    exact congrArg Except.ok (@moved_of_toNat (atStart data h) p p.toNat rfl).symm
  · rw [if_neg hp, if_neg hp]
    rfl

/-- **Cursors stay inside.** A cursor can be set out at every position of a byte string up to its
end and at no other. After any operations, with any words as arguments, the position is not past the
end; the next operation gives what stands between the positions before and after it, or refuses and
does not move; and all sums and ranges that it needs on its way are in bounds. -/
theorem run_disciplined (data : Bytes) (h : data.size < UInt64.size) :
    (∀ p : UInt64, atPosition data h p =
      if p.toNat ≤ data.size then .ok ⟨data, h, p⟩ else .error (.refused .outOfBounds)) ∧
    ∀ c, (c = atStart data h ∨ ∃ p, atPosition data h p = .ok c) → ∀ steps,
      (c.run steps).data = data ∧ ∀ step, (c.run steps).Disciplined step := by
  refine ⟨atPosition_eq data h, fun c hstart steps => ?_⟩
  have hc : c.Inside ∧ c.data = data := by
    obtain rfl | ⟨p, hp⟩ := hstart
    · exact ⟨inside_atStart data h, rfl⟩
    · rw [atPosition_eq] at hp
      split at hp
      · cases hp
        exact ⟨‹_›, rfl⟩
      · cases hp
  obtain ⟨hinside, hdata⟩ := hc.1.run steps
  exact ⟨hdata.trans hc.2, hinside.disciplined⟩

/-- A number, a string and one more byte. -/
def oddments : Bytes :=
  #[0xE5, 0x8E, 0x26, 0x68, 0x69, 0x00, 0x2A]

theorem size_oddments : oddments.size < UInt64.size := by
  decide

theorem run_disciplined_oddments :
    ∃ c, atPosition oddments size_oddments 1 = .ok c ∧
      (c.run [.advance (-1), .unsignedLeb, .align 3, .bytes (-4), .cstring]).position = 6 ∧
      (c.run [.advance (-1), .unsignedLeb, .align 3, .bytes (-4), .cstring]).Disciplined
        (.number .two) := by
  have hstart : atPosition oddments size_oddments 1 = .ok ⟨oddments, size_oddments, 1⟩ := rfl
  exact ⟨_, hstart, by decide +kernel,
    ((run_disciplined oddments size_oddments).2 _ (.inr ⟨1, hstart⟩) _).2 _⟩

end Cursor

end DexGraph
