import DexGraph.Proofs.Bytes.Leb128

/-!
# LEB128 numbers in shortest form

A number may be stored in more groups than it needs, and the fifth group has bits that do not count.
A number is in shortest form if none of its groups can be left out and no bit is dropped: then its
groups are the ones that are written for it (`Leb128.unsignedGroups_unsigned` and
`Leb128.signedGroups_signed`). `Decoder.shortestLeb` and `Decoder.shortestSignedLeb` read a number
only in this form.
-/

namespace DexGraph

namespace Leb128

/-- No bit of an unsigned number is dropped, and its last group is needed. -/
def ShortestForm (gs : List UInt8) : Prop :=
  number gs < 2 ^ 32 ∧ (gs.length = 1 ∨ 128 ^ (gs.length - 1) ≤ number gs)

/-- The number of which the bits of all groups are the two's complement. -/
def signedNumber (gs : List UInt8) : Int :=
  if 2 * number gs < 128 ^ gs.length then number gs else number gs - 128 ^ gs.length

/-- No bit of a signed number is dropped, and its last group is needed. -/
def SignedShortestForm (gs : List UInt8) : Prop :=
  -2 ^ 31 ≤ signedNumber gs ∧ signedNumber gs < 2 ^ 31 ∧
    (gs.length = 1 ∨ ¬ (-128 ^ (gs.length - 1) ≤ 2 * signedNumber gs ∧
      2 * signedNumber gs < 128 ^ (gs.length - 1)))

instance (gs : List UInt8) : Decidable (ShortestForm gs) :=
  inferInstanceAs (Decidable (_ ∧ _))

instance (gs : List UInt8) : Decidable (SignedShortestForm gs) :=
  inferInstanceAs (Decidable (_ ∧ _ ∧ _))

/-- The bits of the groups, and where they end, determine the groups. -/
theorem eq_of_number_eq {gs gs' : List UInt8} (hterm : Terminated gs) (hterm' : Terminated gs')
    (hlen : gs.length = gs'.length) (hnumber : number gs = number gs') : gs = gs' := by
  induction gs generalizing gs' with
  | nil => exact hterm.elim
  | cons b rest ih =>
    cases gs' with
    | nil => exact hterm'.elim
    | cons b' rest' =>
      simp only [number] at hnumber
      have hb := b.toNat_lt
      have hb' := b'.toNat_lt
      -- Both groups are the last ones, or neither of them is.
      cases rest with
      | nil =>
        cases rest' with
        | cons _ _ => simp at hlen
        | nil =>
          have hlast := (isLast_iff b).mp hterm
          have hlast' := (isLast_iff b').mp hterm'
          simp only [number] at hnumber
          rw [UInt8.toNat_inj.mp (show b.toNat = b'.toNat by omega)]
      | cons c tail =>
        have hne' : rest' ≠ [] := by
          rintro rfl
          simp at hlen
        obtain ⟨hmore, hterm⟩ := (terminated_cons (by simp)).mp hterm
        obtain ⟨hmore', hterm'⟩ := (terminated_cons hne').mp hterm'
        rw [isLast_iff] at hmore hmore'
        rw [UInt8.toNat_inj.mp (show b.toNat = b'.toNat by omega),
          ih hterm hterm' (by simpa using hlen) (by omega)]

/-- An unsigned number in shortest form has the groups that are written for it. -/
theorem unsignedGroups_unsigned {gs : List UInt8} (hterm : Terminated gs) (h : ShortestForm gs) :
    unsignedGroups maxGroups (unsigned gs) = gs := by
  obtain ⟨hword, hneeded⟩ := h
  have hvalue : (unsigned gs).toNat = number gs := by
    rw [toNat_unsigned, Nat.mod_eq_of_lt hword]
  obtain ⟨hterm', hnumber, -, -⟩ := unsignedGroups_spec maxGroups (v := unsigned gs) (by decide)
    (Nat.lt_trans (unsigned gs).toNat_lt (by decide))
  have hle : (unsignedGroups maxGroups (unsigned gs)).length ≤ gs.length :=
    size_encodeUnsigned_le hterm
  refine eq_of_number_eq hterm' hterm (Nat.le_antisymm hle ?_) (hnumber.trans hvalue)
  have hpos := List.length_pos_iff.mpr hterm'.ne_nil
  rcases hneeded with hone | hneeded
  · omega
  · have hlt := number_lt (unsignedGroups maxGroups (unsigned gs))
    rw [hnumber, hvalue] at hlt
    have := (Nat.pow_lt_pow_iff_right (by decide)).mp (hneeded.trans_lt hlt)
    omega

private theorem emod_signedNumber (gs : List UInt8) :
    signedNumber gs % 128 ^ gs.length = number gs := by
  have hlt : (number gs : Int) < 128 ^ gs.length := mod_cast number_lt gs
  unfold signedNumber
  split
  · exact Int.emod_eq_of_lt (by positivity) hlt
  · rw [Int.sub_emod_right, Int.emod_eq_of_lt (by positivity) hlt]

private theorem signedNumber_bounds (gs : List UInt8) :
    -128 ^ gs.length ≤ 2 * signedNumber gs ∧ 2 * signedNumber gs < 128 ^ gs.length := by
  have hlt : (number gs : Int) < 128 ^ gs.length := mod_cast number_lt gs
  unfold signedNumber
  split
  · rename_i hlow
    have hlow : 2 * (number gs : Int) < 128 ^ gs.length := mod_cast hlow
    omega
  · rename_i hhigh
    have hhigh : 128 ^ gs.length ≤ 2 * (number gs : Int) := by
      exact_mod_cast Nat.le_of_not_lt hhigh
    omega

/-- A signed number whose bits all count is the number of its groups. -/
theorem toInt_signed {gs : List UInt8} (hterm : Terminated gs) (hlen : gs.length ≤ maxGroups)
    (hlow : -2 ^ 31 ≤ signedNumber gs) (hhigh : signedNumber gs < 2 ^ 31) :
    (signed gs).toInt = signedNumber gs := by
  obtain ⟨k, hk⟩ := Nat.exists_eq_succ_of_ne_zero fun h =>
    hterm.ne_nil (List.length_eq_zero_iff.mp h)
  have hvalue : (Int32.ofInt (signedNumber gs)).toInt = signedNumber gs :=
    Int32.toInt_ofInt_of_le hlow hhigh
  have hmod := emod_signedNumber gs
  obtain ⟨hle, hlt⟩ := signedNumber_bounds gs
  rw [hk] at hmod
  rw [hk, Int.pow_succ] at hle hlt
  have hmax : maxGroups = 5 := rfl
  rw [signed_eq (v := Int32.ofInt (signedNumber gs)) (k := k) (by omega) hk
    (by rw [hvalue, hmod]) (by rw [hvalue]; omega) (by rw [hvalue]; omega), hvalue]

/-- A signed number in shortest form has the groups that are written for it. -/
theorem signedGroups_signed {gs : List UInt8} (hterm : Terminated gs)
    (hlen : gs.length ≤ maxGroups) (h : SignedShortestForm gs) :
    signedGroups maxGroups (signed gs) = gs := by
  obtain ⟨hlow, hhigh, hneeded⟩ := h
  have hvalue := toInt_signed hterm hlen hlow hhigh
  have hle := (signed gs).le_toInt
  have hlt := (signed gs).toInt_lt
  obtain ⟨k, hk, hlen', hterm', hnumber, hlow', hhigh'⟩ :=
    signedGroups_spec 4 (v := signed gs) (by omega) (by omega)
  have hsize : (signedGroups maxGroups (signed gs)).length ≤ gs.length :=
    size_encodeSigned_le hterm
  change (signedGroups maxGroups (signed gs)).length = k + 1 at hlen'
  have hk : gs.length = k + 1 := by
    refine Nat.le_antisymm ?_ (hlen' ▸ hsize)
    rcases hneeded with hone | hneeded
    · omega
    · by_contra hmore
      -- The number would fit the groups before the last one.
      refine hneeded ?_
      have hpow : (128 : Int) ^ (k + 1) ≤ 128 ^ (gs.length - 1) :=
        pow_le_pow_right₀ (by decide) (by omega)
      rw [Int.pow_succ] at hpow
      rw [hvalue] at hlow' hhigh'
      omega
  refine eq_of_number_eq hterm' hterm (hlen'.trans hk.symm) ?_
  have hmod := emod_signedNumber gs
  rw [hk] at hmod
  rw [hvalue, hmod] at hnumber
  exact_mod_cast hnumber

end Leb128

namespace Bytes

/-- The form has come out, and it stands from `p` on and ends at `q`. -/
def Spells (data : Bytes) (p q : Nat) (form : Except Error (List UInt8)) : Prop :=
  ∃ part, form = .ok part ∧ data.HoldsAt p part ∧ q = p + part.length

variable {data : Bytes} {p q r : Nat} {form form' : Except Error (List UInt8)}

theorem spells_nil : data.Spells p p (.ok []) :=
  ⟨[], rfl, holdsAt_nil data p, rfl⟩

/-- A form behind a form is one form. -/
theorem Spells.append (h : data.Spells p q form) (h' : data.Spells q r form') :
    data.Spells p r (do return (← form) ++ (← form')) := by
  obtain ⟨part, rfl, hat, rfl⟩ := h
  obtain ⟨part', rfl, hat', rfl⟩ := h'
  exact ⟨part ++ part', rfl, holdsAt_append.mpr ⟨hat, hat'⟩, by rw [List.length_append, Nat.add_assoc]⟩

end Bytes

namespace Decoder

/-- Fails unless a condition holds. -/
def require (c : Prop) [Decidable c] : Decoder Unit :=
  if c then pure () else fail .outOfBounds

/-- The next unsigned LEB128 number, in shortest form. -/
def shortestLeb : Decoder UInt32 := do
  let gs ← groups .outOfBounds Leb128.maxGroups
  require (Leb128.ShortestForm gs)
  return Leb128.unsigned gs

/-- The next signed LEB128 number, in shortest form. -/
def shortestSignedLeb : Decoder Int32 := do
  let gs ← groups .outOfBounds Leb128.maxGroups
  require (Leb128.SignedShortestForm gs)
  return Leb128.signed gs

variable {data : Bytes} {p q : Nat}

theorem reads_require_iff {c : Prop} [Decidable c] {u : Unit} :
    (require c).Reads data p u q ↔ c ∧ q = p := by
  unfold require
  split
  · rename_i hc
    simp [reads_pure_iff, hc]
  · rename_i hc
    simp [hc]

theorem reads_require_bind_iff {α : Type} {c : Prop} [Decidable c] {d : Decoder α} {a : α} :
    (do require c; d : Decoder α).Reads data p a q ↔ c ∧ d.Reads data p a q := by
  rw [reads_bind_iff]
  simp only [reads_require_iff]
  constructor
  · rintro ⟨_, _, ⟨hc, rfl⟩, h⟩
    exact ⟨hc, h⟩
  · rintro ⟨hc, h⟩
    exact ⟨(), p, ⟨hc, rfl⟩, h⟩

/-- What is read in shortest form are the bytes that are written for it. -/
theorem spells_of_shortestLeb {v : UInt32} (h : shortestLeb.Reads data p v q) :
    data.Spells p q (.ok (Leb128.encodeUnsigned v).toList) := by
  simp only [shortestLeb, reads_bind_iff, reads_groups_iff, reads_require_iff, reads_pure_iff] at h
  obtain ⟨gs, _, ⟨hterm, -, hat, rfl⟩, -, _, ⟨hshort, rfl⟩, rfl, rfl⟩ := h
  have hgroups : (Leb128.encodeUnsigned (Leb128.unsigned gs)).toList = gs :=
    Leb128.unsignedGroups_unsigned hterm hshort
  rw [hgroups]
  exact ⟨gs, rfl, hat, rfl⟩

theorem spells_of_shortestSignedLeb {v : Int32} (h : shortestSignedLeb.Reads data p v q) :
    data.Spells p q (.ok (Leb128.encodeSigned v).toList) := by
  simp only [shortestSignedLeb, reads_bind_iff, reads_groups_iff, reads_require_iff,
    reads_pure_iff] at h
  obtain ⟨gs, _, ⟨hterm, hlen, hat, rfl⟩, -, _, ⟨hshort, rfl⟩, rfl, rfl⟩ := h
  have hgroups : (Leb128.encodeSigned (Leb128.signed gs)).toList = gs :=
    Leb128.signedGroups_signed hterm hlen hshort
  rw [hgroups]
  exact ⟨gs, rfl, hat, rfl⟩

/-- A number in shortest form is the number that is read in any form. -/
theorem unsignedLeb_of_shortestLeb {v : UInt32} (h : shortestLeb.Reads data p v q) :
    unsignedLeb.Reads data p v q := by
  obtain ⟨_, ⟨⟩, hat, rfl⟩ := spells_of_shortestLeb h
  rw [Array.length_toList]
  exact reads_encodeUnsigned hat

theorem signedLeb_of_shortestSignedLeb {v : Int32} (h : shortestSignedLeb.Reads data p v q) :
    signedLeb.Reads data p v q := by
  obtain ⟨_, ⟨⟩, hat, rfl⟩ := spells_of_shortestSignedLeb h
  rw [Array.length_toList]
  exact reads_encodeSigned hat

/-! ## Reading twice -/

/-- Where the strict decoder accepts what the other one reads, both stop at the same place, and what
stands there is the form of what is read. -/
def Keeps {α β : Type} (d : Decoder α) (strict : Decoder β)
    (encode : α → Except Error (List UInt8)) : Prop :=
  ∀ data p a q b r, d.Reads data p a q → strict.Reads data p b r →
    r = q ∧ data.Spells p q (encode a)

/-- An unsigned number that is read as well in shortest form. -/
theorem shortestLeb_eq {v v' : UInt32} {r : Nat} (h : unsignedLeb.Reads data p v q)
    (h' : shortestLeb.Reads data p v' r) :
    v' = v ∧ r = q ∧ data.Spells p q (.ok (Leb128.encodeUnsigned v).toList) := by
  obtain ⟨rfl, rfl⟩ := (unsignedLeb_of_shortestLeb h').unique h
  exact ⟨rfl, rfl, spells_of_shortestLeb h'⟩

theorem shortestSignedLeb_eq {v v' : Int32} {r : Nat} (h : signedLeb.Reads data p v q)
    (h' : shortestSignedLeb.Reads data p v' r) :
    v' = v ∧ r = q ∧ data.Spells p q (.ok (Leb128.encodeSigned v).toList) := by
  obtain ⟨rfl, rfl⟩ := (signedLeb_of_shortestSignedLeb h').unique h
  exact ⟨rfl, rfl, spells_of_shortestSignedLeb h'⟩

/-- Values that are read one behind the other stand there in their forms, if each of them does. -/
theorem ReadsEach.spells {α : Type} {d : Decoder α} {f : α → List UInt8} {xs : List α}
    (hd : ∀ p x q, d.Reads data p x q → data.Spells p q (.ok (f x)))
    (h : ReadsEach d data p xs q) : data.Spells p q (.ok (xs.flatMap f)) := by
  induction xs generalizing p with
  | nil =>
    obtain rfl : q = p := h
    exact Bytes.spells_nil
  | cons x rest ih =>
    obtain ⟨r, hx, hrest⟩ := h
    exact (hd p x r hx).append (ih hrest)

end Decoder

end DexGraph
