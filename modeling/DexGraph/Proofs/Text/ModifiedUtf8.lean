import DexGraph.Text.ModifiedUtf8
import Mathlib

/-!
# Text there and back

A text is written as UTF-16 units, and each unit in one to three bytes. Both are read with a look
ahead (`Text.scan`), and both tell from their first element how far an item goes. So the items are
found again whatever follows them (`Text.scan_flatMap_append`): a unit is read back before any
bytes (`Text.ModifiedUtf8.decode_flatMap_append`), a character before any units, and a text from its
bytes (`Text.ModifiedUtf8.toText_encode`). No byte of a text is zero.
-/

namespace DexGraph.Text

/-! ## Items that say where they end -/

section Scanning

variable {α β : Type} {item : α → List α → β × Nat} {encode : β → List α}

/-- The elements of an item are read as the item, and as no more than its elements, whatever follows
them. -/
def Delimited (item : α → List α → β × Nat) (encode : β → List α) : Prop :=
  ∀ x rest, ∃ a tail, encode x = a :: tail ∧ item a (tail ++ rest) = (x, tail.length)

theorem Delimited.scan_append (h : Delimited item encode) (x : β) (rest : List α) :
    scan item (encode x ++ rest) = x :: scan item rest := by
  obtain ⟨a, tail, hencode, hitem⟩ := h x rest
  rw [hencode, List.cons_append, scan_cons, hitem, List.drop_left]

/-- The elements of several items are read as these items, and what follows is read from its
start. -/
theorem Delimited.scan_flatMap_append (h : Delimited item encode) (xs : List β) (rest : List α) :
    scan item (xs.flatMap encode ++ rest) = xs ++ scan item rest := by
  induction xs with
  | nil => rfl
  | cons x xs ih =>
    rw [List.flatMap_cons, List.append_assoc, h.scan_append, ih, List.cons_append]

/-- Every item takes an element at least. -/
theorem Delimited.length_le (h : Delimited item encode) (xs : List β) :
    xs.length ≤ (xs.flatMap encode).length := by
  induction xs with
  | nil => exact Nat.zero_le _
  | cons x xs ih =>
    obtain ⟨a, tail, hencode, -⟩ := h x []
    rw [List.flatMap_cons, List.length_append, List.length_cons, hencode, List.length_cons]
    omega

end Scanning

/-! ## UTF-16 -/

/-- The six high bits of a unit. -/
theorem toNat_and_highBits (u : UInt16) : (u &&& 0xFC00).toNat = u.toNat / 1024 * 1024 := by
  have hlt := u.toNat_lt
  change u.toNat &&& 0xFC00 = _
  have hhigh : (u.toNat &&& 0xFC00) / 2 ^ 10 = u.toNat / 2 ^ 10 := by
    rw [Nat.and_div_two_pow]
    change u.toNat / 2 ^ 10 &&& 2 ^ 6 - 1 = _
    rw [Nat.and_two_pow_sub_one_eq_mod]
    omega
  have hlow : (u.toNat &&& 0xFC00) % 2 ^ 10 = 0 := by
    rw [Nat.and_mod_two_pow]
    exact Nat.and_zero _
  omega

theorem isHighSurrogate_iff (u : UInt16) :
    isHighSurrogate u = true ↔ 0xD800 ≤ u.toNat ∧ u.toNat < 0xDC00 := by
  rw [isHighSurrogate, beq_iff_eq, ← UInt16.toNat_inj, toNat_and_highBits]
  change u.toNat / 1024 * 1024 = 0xD800 ↔ _
  omega

theorem isLowSurrogate_iff (u : UInt16) :
    isLowSurrogate u = true ↔ 0xDC00 ≤ u.toNat ∧ u.toNat < 0xE000 := by
  rw [isLowSurrogate, beq_iff_eq, ← UInt16.toNat_inj, toNat_and_highBits]
  change u.toNat / 1024 * 1024 = 0xDC00 ↔ _
  omega

theorem toNat_toUInt16 {n : Nat} (h : n < 2 ^ 16) : n.toUInt16.toNat = n := by
  rw [Nat.toUInt16_eq, UInt16.toNat_ofNat', Nat.mod_eq_of_lt h]

/-- A character is read from its units: no unit of its own is a surrogate, and a pair of surrogates
is complete. -/
theorem delimited_unitsOfChar : Delimited charOfUnits unitsOfChar := by
  intro c rest
  have hvalid : c.toNat < 0xD800 ∨ 0xDFFF < c.toNat ∧ c.toNat < 0x110000 := c.valid
  by_cases hsmall : c.toNat < 0x10000
  · refine ⟨c.toNat.toUInt16, [], if_pos hsmall, ?_⟩
    have hunit : c.toNat.toUInt16.toNat = c.toNat := toNat_toUInt16 hsmall
    have hhigh : ¬ isHighSurrogate c.toNat.toUInt16 = true := by
      rw [isHighSurrogate_iff, hunit]
      omega
    have hlow : ¬ isLowSurrogate c.toNat.toUInt16 = true := by
      rw [isLowSurrogate_iff, hunit]
      omega
    unfold charOfUnits
    rw [if_neg hhigh, if_neg hlow, hunit, Char.ofNat_toNat]
    rfl
  · refine ⟨(0xD800 + (c.toNat - 0x10000) / 0x400).toUInt16,
      [(0xDC00 + (c.toNat - 0x10000) % 0x400).toUInt16], if_neg hsmall, ?_⟩
    have hfirst := toNat_toUInt16 (n := 0xD800 + (c.toNat - 0x10000) / 0x400) (by omega)
    have hsecond := toNat_toUInt16 (n := 0xDC00 + (c.toNat - 0x10000) % 0x400) (by omega)
    generalize (0xD800 + (c.toNat - 0x10000) / 0x400).toUInt16 = high at hfirst ⊢
    generalize (0xDC00 + (c.toNat - 0x10000) % 0x400).toUInt16 = low at hsecond ⊢
    have hhigh : isHighSurrogate high = true := by
      rw [isHighSurrogate_iff]
      omega
    have hlow : isLowSurrogate low = true := by
      rw [isLowSurrogate_iff]
      omega
    have hchar : charOfPair high low = c := by
      have hnat : 0x10000 + (high.toNat - 0xD800) * 0x400 + (low.toNat - 0xDC00) = c.toNat := by
        omega
      rw [charOfPair, hnat, Char.ofNat_toNat]
    unfold charOfUnits
    rw [if_pos hhigh, List.singleton_append]
    dsimp only
    rw [if_pos hlow, hchar]
    rfl

/-- A text is given back by its units. -/
theorem stringOfUnits_unitsOfString (text : String) :
    stringOfUnits (unitsOfString text) = text := by
  have h := delimited_unitsOfChar.scan_flatMap_append text.toList []
  rw [List.append_nil, scan_nil, List.append_nil] at h
  rw [stringOfUnits, unitsOfString, h, String.ofList_toList]

/-- A character takes one unit, or two if it lies beyond the first `2 ^ 16` of them. -/
theorem length_unitsOfString (text : String) : (unitsOfString text).length =
    text.length + text.toList.countP fun c => 0x10000 ≤ c.toNat := by
  have hlist (cs : List Char) : (cs.flatMap unitsOfChar).length =
      cs.length + cs.countP fun c => 0x10000 ≤ c.toNat := by
    induction cs with
    | nil => rfl
    | cons c cs ih =>
      have hchar : (unitsOfChar c).length = 1 + if 0x10000 ≤ c.toNat then 1 else 0 := by
        unfold unitsOfChar
        by_cases h : c.toNat < 0x10000
        · rw [if_pos h, if_neg (Nat.not_le.mpr h)]
          rfl
        · rw [if_neg h, if_pos (Nat.not_lt.mp h)]
          rfl
      rw [List.flatMap_cons, List.length_append, ih, hchar, List.length_cons, List.countP_cons]
      simp only [decide_eq_true_eq]
      omega
  rw [unitsOfString, hlist, String.length_toList]

namespace ModifiedUtf8

/-! ## The bytes of a unit -/

/-- A byte that continues a unit holds six bits of it. -/
theorem continuation_spec (u : UInt16) : isContinuation (continuation u) = true ∧
    (continuation u &&& 0x3F).toNat = u.toNat % 64 ∧ continuation u ≠ 0 := by
  have h : ∀ b : BitVec 8, isContinuation (0x80 ||| (⟨b⟩ &&& 0x3F)) = true ∧
      ((0x80 ||| ((⟨b⟩ : UInt8) &&& 0x3F)) &&& 0x3F).toNat = b.toNat % 64 ∧
      (0x80 : UInt8) ||| (⟨b⟩ &&& 0x3F) ≠ 0 := by
    decide +kernel
  obtain ⟨hcontinues, hpayload, hne⟩ := h u.toUInt8.toBitVec
  refine ⟨hcontinues, hpayload.trans ?_, hne⟩
  change u.toUInt8.toNat % 64 = _
  rw [UInt16.toNat_toUInt8]
  omega

/-- The first of two bytes holds five bits. -/
theorem firstOfTwo_spec (x : UInt8) : ¬ (0xC0 ||| (x &&& 0x1F)) < 0x80 ∧
    ((0xC0 ||| (x &&& 0x1F)) &&& 0xE0 == 0xC0) = true ∧
    ((0xC0 ||| (x &&& 0x1F)) &&& 0x1F).toNat = x.toNat % 32 ∧ 0xC0 ||| (x &&& 0x1F) ≠ 0 := by
  have h : ∀ b : BitVec 8, ¬ (0xC0 ||| ((⟨b⟩ : UInt8) &&& 0x1F)) < 0x80 ∧
      ((0xC0 ||| ((⟨b⟩ : UInt8) &&& 0x1F)) &&& 0xE0 == 0xC0) = true ∧
      ((0xC0 ||| ((⟨b⟩ : UInt8) &&& 0x1F)) &&& 0x1F).toNat = b.toNat % 32 ∧
      0xC0 ||| ((⟨b⟩ : UInt8) &&& 0x1F) ≠ 0 := by
    decide +kernel
  exact h x.toBitVec

/-- The first of three bytes holds four bits. -/
theorem firstOfThree_spec (x : UInt8) : ¬ (0xE0 ||| (x &&& 0x0F)) < 0x80 ∧
    ((0xE0 ||| (x &&& 0x0F)) &&& 0xE0 == 0xC0) = false ∧
    ((0xE0 ||| (x &&& 0x0F)) &&& 0xF0 == 0xE0) = true ∧
    ((0xE0 ||| (x &&& 0x0F)) &&& 0x0F).toNat = x.toNat % 16 ∧ 0xE0 ||| (x &&& 0x0F) ≠ 0 := by
  have h : ∀ b : BitVec 8, ¬ (0xE0 ||| ((⟨b⟩ : UInt8) &&& 0x0F)) < 0x80 ∧
      ((0xE0 ||| ((⟨b⟩ : UInt8) &&& 0x0F)) &&& 0xE0 == 0xC0) = false ∧
      ((0xE0 ||| ((⟨b⟩ : UInt8) &&& 0x0F)) &&& 0xF0 == 0xE0) = true ∧
      ((0xE0 ||| ((⟨b⟩ : UInt8) &&& 0x0F)) &&& 0x0F).toNat = b.toNat % 16 ∧
      0xE0 ||| ((⟨b⟩ : UInt8) &&& 0x0F) ≠ 0 := by
    decide +kernel
  exact h x.toBitVec

theorem toNat_join {bits : UInt16} (hbits : bits.toNat < 2 ^ 10) (b : UInt8) :
    (join bits b).toNat = bits.toNat * 64 + (b &&& 0x3F).toNat := by
  have hlow : (b &&& 0x3F).toNat < 2 ^ 6 := by
    change (b.toNat &&& 2 ^ 6 - 1) < _
    rw [Nat.and_two_pow_sub_one_eq_mod]
    omega
  have hhigh : (bits <<< 6).toNat = bits.toNat <<< 6 := by
    rw [UInt16.toNat_shiftLeft]
    change bits.toNat <<< 6 % 2 ^ 16 = _
    rw [Nat.shiftLeft_eq]
    omega
  rw [join, UInt16.toNat_or, hhigh, UInt8.toNat_toUInt16,
    ← Nat.shiftLeft_add_eq_or_of_lt hlow, Nat.shiftLeft_eq]

/-- Shifting a unit and taking the low byte. -/
theorem toNat_shiftRight_toUInt8 (u k : UInt16) (hk : k.toNat < 16) :
    (u >>> k).toUInt8.toNat = u.toNat / 2 ^ k.toNat % 256 := by
  rw [UInt16.toNat_toUInt8, UInt16.toNat_shiftRight, Nat.mod_eq_of_lt hk,
    Nat.shiftRight_eq_div_pow]

theorem unitAt_one {u : UInt16} (h : u.toNat < 0x80) (rest : List UInt8) :
    unitAt u.toUInt8 rest = (u, 0) := by
  have hbyte : u.toUInt8.toNat = u.toNat := by
    rw [UInt16.toNat_toUInt8]
    omega
  have hunit : u.toUInt8.toUInt16 = u := by
    rw [← UInt16.toNat_inj, UInt8.toNat_toUInt16, hbyte]
  unfold unitAt
  rw [if_pos (by rw [UInt8.lt_iff_toNat_lt, hbyte]; exact h), hunit]

theorem unitAt_two {u : UInt16} (h : u.toNat < 0x800) (rest : List UInt8) :
    unitAt ((0xC0 : UInt8) ||| ((u >>> 6).toUInt8 &&& 0x1F)) (continuation u :: rest) = (u, 1) := by
  have hsix : (u >>> 6).toUInt8.toNat = u.toNat / 64 % 256 :=
    toNat_shiftRight_toUInt8 u 6 (by decide)
  obtain ⟨hlong, htwo, hhigh, -⟩ := firstOfTwo_spec (u >>> 6).toUInt8
  obtain ⟨hcontinues, hlow, -⟩ := continuation_spec u
  unfold unitAt
  rw [if_neg hlong, if_pos htwo]
  dsimp only
  rw [if_pos hcontinues]
  generalize (0xC0 : UInt8) ||| ((u >>> 6).toUInt8 &&& 0x1F) = first at hhigh ⊢
  have hunit : join (first &&& 0x1F).toUInt16 (continuation u) = u := by
    rw [← UInt16.toNat_inj, toNat_join (by rw [UInt8.toNat_toUInt16]; omega),
      UInt8.toNat_toUInt16, hhigh, hlow, hsix]
    omega
  rw [hunit]

theorem unitAt_three (u : UInt16) (rest : List UInt8) :
    unitAt ((0xE0 : UInt8) ||| ((u >>> 12).toUInt8 &&& 0x0F))
      (continuation (u >>> 6) :: continuation u :: rest) = (u, 2) := by
  have hlt := u.toNat_lt
  have htwelve : (u >>> 12).toUInt8.toNat = u.toNat / 4096 % 256 :=
    toNat_shiftRight_toUInt8 u 12 (by decide)
  have hsix : (u >>> 6).toNat = u.toNat / 64 := by
    rw [UInt16.toNat_shiftRight, Nat.shiftRight_eq_div_pow]
    rfl
  obtain ⟨hlong, hnotTwo, hthree, hhigh, -⟩ := firstOfThree_spec (u >>> 12).toUInt8
  obtain ⟨hcontinues, hmiddle, -⟩ := continuation_spec (u >>> 6)
  obtain ⟨hcontinues', hlow, -⟩ := continuation_spec u
  unfold unitAt
  rw [if_neg hlong, hnotTwo, if_neg Bool.false_ne_true, if_pos hthree]
  dsimp only
  rw [hcontinues, hcontinues', if_pos (by rfl)]
  generalize (0xE0 : UInt8) ||| ((u >>> 12).toUInt8 &&& 0x0F) = first at hhigh ⊢
  have hupper : (join (first &&& 0x0F).toUInt16 (continuation (u >>> 6))).toNat =
      u.toNat / 64 := by
    rw [toNat_join (by rw [UInt8.toNat_toUInt16]; omega), UInt8.toNat_toUInt16, hhigh, hmiddle,
      htwelve, hsix]
    omega
  have hunit : join (join (first &&& 0x0F).toUInt16 (continuation (u >>> 6))) (continuation u) =
      u := by
    rw [← UInt16.toNat_inj, toNat_join (by omega), hupper, hlow]
    omega
  rw [hunit]

/-- A unit is read from its bytes. -/
theorem delimited_encodeUnit : Delimited unitAt encodeUnit := by
  intro u rest
  unfold encodeUnit
  by_cases hone : (u != 0 && u < 0x80) = true
  · rw [if_pos hone]
    rw [Bool.and_eq_true, decide_eq_true_eq] at hone
    exact ⟨_, _, rfl, unitAt_one (UInt16.lt_iff_toNat_lt.mp hone.2) _⟩
  rw [if_neg hone]
  by_cases htwo : u < 0x800
  · rw [if_pos htwo]
    exact ⟨_, _, rfl, unitAt_two (UInt16.lt_iff_toNat_lt.mp htwo) _⟩
  · rw [if_neg htwo]
    exact ⟨_, _, rfl, unitAt_three u _⟩

/-- Units are read back from their bytes, surrogates that stand alone as well, and what follows the
bytes is read from its start. -/
theorem decode_flatMap_append (units : List UInt16) (rest : List UInt8) :
    decode (units.flatMap encodeUnit ++ rest) = units ++ decode rest :=
  delimited_encodeUnit.scan_flatMap_append units rest

theorem encodeUnit_ne_zero (u : UInt16) : ∀ b ∈ encodeUnit u, b ≠ 0 := by
  unfold encodeUnit
  by_cases hone : (u != 0 && u < 0x80) = true
  · rw [if_pos hone]
    rw [Bool.and_eq_true, decide_eq_true_eq, UInt16.lt_iff_toNat_lt, bne_iff_ne, ne_eq,
      ← UInt16.toNat_inj] at hone
    obtain ⟨hne, hlt⟩ := hone
    change ¬ u.toNat = 0 at hne
    change u.toNat < 128 at hlt
    intro b hb
    rw [List.mem_singleton.mp hb, ne_eq, ← UInt8.toNat_inj, UInt16.toNat_toUInt8]
    change ¬ u.toNat % 256 = 0
    omega
  rw [if_neg hone]
  split
  · simp only [List.forall_mem_cons]
    exact ⟨(firstOfTwo_spec _).2.2.2, (continuation_spec u).2.2, List.forall_mem_nil _⟩
  · simp only [List.forall_mem_cons]
    exact ⟨(firstOfThree_spec _).2.2.2.2, (continuation_spec _).2.2, (continuation_spec u).2.2,
      List.forall_mem_nil _⟩

/-! ## The bytes of a text -/

theorem encode_ne_zero (text : String) : ∀ b ∈ encode text, b ≠ 0 := by
  intro b hb
  obtain ⟨u, -, hu⟩ := List.mem_flatMap.mp hb
  exact encodeUnit_ne_zero u b hu

theorem length_unitsOfString_le (text : String) :
    (unitsOfString text).length ≤ (encode text).length :=
  delimited_encodeUnit.length_le (unitsOfString text)

theorem decode_encode_append (text : String) (rest : List UInt8) :
    decode (encode text ++ rest) = unitsOfString text ++ decode rest :=
  decode_flatMap_append (unitsOfString text) rest

/-- A text is given back by its bytes. -/
theorem toText_encode (text : String) : toText (encode text) = text := by
  have h := decode_encode_append text []
  rw [List.append_nil] at h
  rw [toText, h, decode, scan_nil, List.append_nil, stringOfUnits_unitsOfString]

end ModifiedUtf8

end DexGraph.Text
