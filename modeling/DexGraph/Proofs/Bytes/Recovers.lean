import DexGraph.Proofs.Bytes.Leb128
import DexGraph.Proofs.Codec.Concat

/-!
# Reading back what has been written

`Decoder.Recovers d part a` says that the decoder reads `a` wherever the bytes of `part` stand, and
stops behind them. It is kept by the ways of building decoders, so that a decoder is seen to undo an
encoder piece by piece.
-/

namespace DexGraph.Decoder

variable {α β : Type} {d : Decoder α} {f : α → Decoder β} {part rest : List UInt8} {a : α} {b : β}

/-- Wherever the bytes stand, the decoder reads the value from them. -/
def Recovers (d : Decoder α) (part : List UInt8) (a : α) : Prop :=
  ∀ (data : Bytes) (p : Nat), data.HoldsAt p part → d.Reads data p a (p + part.length)

/-- Wherever the bytes stand, the decoder reads the values from them, one behind the other. -/
def RecoversEach (d : Decoder α) (part : List UInt8) (xs : List α) : Prop :=
  ∀ (data : Bytes) (p : Nat), data.HoldsAt p part → ReadsEach d data p xs (p + part.length)

/-- A value is read between other bytes, and reading stops where its own bytes end. -/
theorem Recovers.runAt (h : d.Recovers part a) (before rest : List UInt8) :
    d.runAt (before ++ part ++ rest).toArray before.length =
      .ok (a, before.length + part.length) :=
  h _ _ (Bytes.holdsAt_between before part rest)

/-! ## Decoders in sequence -/

theorem recovers_pure : (pure a : Decoder α).Recovers [] a :=
  fun _ _ _ => reads_pure_iff.mpr ⟨rfl, rfl⟩

theorem Recovers.bind (hd : d.Recovers part a) (hf : (f a).Recovers rest b) :
    (d >>= f).Recovers (part ++ rest) b := by
  intro data p h
  obtain ⟨hpart, hrest⟩ := Bytes.holdsAt_append.mp h
  rw [List.length_append, ← Nat.add_assoc]
  exact (hd data p hpart).bind (hf data _ hrest)

/-- A decoder that begins with a byte of its own. -/
theorem Recovers.cons_bind {v : UInt8} (hd : d.Recovers [v] a) (hf : (f a).Recovers rest b) :
    (d >>= f).Recovers (v :: rest) b :=
  hd.bind hf

theorem Recovers.map {g : α → β} (hd : d.Recovers part a) :
    (do return g (← d) : Decoder β).Recovers part (g a) := by
  have h := hd.bind (f := fun x => pure (g x)) recovers_pure
  rwa [List.append_nil] at h

/-- What is looked up takes no bytes. -/
theorem recovers_ofExcept_bind {x : Except Error α} (hx : x = .ok a)
    (hf : (f a).Recovers part b) : (ofExcept x >>= f).Recovers part b :=
  fun data p h => (reads_ofExcept_iff.mpr ⟨hx, rfl⟩).bind (hf data p h)

theorem recovers_ofExcept {x : Except Error α} (hx : x = .ok a) : (ofExcept x).Recovers [] a :=
  fun _ _ _ => reads_ofExcept_iff.mpr ⟨hx, rfl⟩

theorem recovers_position_bind {f : Nat → Decoder β} (hf : ∀ n, (f n).Recovers part b) :
    (position >>= f).Recovers part b :=
  fun data p h => (reads_position_iff.mpr ⟨rfl, rfl⟩).bind (hf p data p h)

/-- There are at least as many bytes left as are read. -/
theorem recovers_remaining_bind {f : Nat → Decoder β}
    (hf : ∀ n, part.length ≤ n → (f n).Recovers part b) : (remaining >>= f).Recovers part b := by
  intro data p h
  refine (reads_remaining_iff.mpr ⟨rfl, rfl⟩).bind (hf _ ?_ data p h)
  by_cases hne : part = []
  · simp [hne]
  · have := h.add_length_le hne
    omega

/-! ## Numbers -/

theorem recovers_byte {v : UInt8} : byte.Recovers [v] v :=
  fun _ _ h => reads_byte_iff.mpr ⟨Bytes.holdsAt_singleton.mp h, rfl⟩

theorem recovers_number {width n : Nat} (hn : n < LittleEndian.capacity width) (hw : width ≠ 0) :
    (number width).Recovers (LittleEndian.encode width n) n := by
  intro data p h
  rw [LittleEndian.length_encode]
  exact reads_number_encode hn hw h

theorem recovers_word {v : UInt32} : word.Recovers (Bytes.ofWord v).toList v :=
  fun _ _ h => reads_word_iff.mpr ⟨h, by simp⟩

theorem recovers_halfWord {v : UInt16} : halfWord.Recovers (Bytes.ofHalfWord v).toList v :=
  fun _ _ h => reads_halfWord_iff.mpr ⟨h, by simp⟩

theorem recovers_unsignedLeb {v : UInt32} :
    unsignedLeb.Recovers (Leb128.encodeUnsigned v).toList v := by
  intro data p h
  rw [Array.length_toList]
  exact reads_encodeUnsigned h

theorem recovers_signedLeb {v : Int32} : signedLeb.Recovers (Leb128.encodeSigned v).toList v := by
  intro data p h
  rw [Array.length_toList]
  exact reads_encodeSigned h

/-! ## Counted lists -/

theorem recoversEach_nil : d.RecoversEach [] [] :=
  fun _ _ _ => rfl

theorem Recovers.cons {xs : List α} (h : d.Recovers part a) (h' : d.RecoversEach rest xs) :
    d.RecoversEach (part ++ rest) (a :: xs) := by
  intro data p hat
  obtain ⟨hpart, hrest⟩ := Bytes.holdsAt_append.mp hat
  rw [List.length_append, ← Nat.add_assoc]
  exact ⟨_, h data p hpart, h' data _ hrest⟩

theorem recoversEach_flatMap {encode : α → List UInt8} {xs : List α}
    (h : ∀ x ∈ xs, d.Recovers (encode x) x) : d.RecoversEach (xs.flatMap encode) xs := by
  induction xs with
  | nil => exact recoversEach_nil
  | cons x xs ih =>
    rw [List.forall_mem_cons] at h
    rw [List.flatMap_cons]
    exact h.1.cons (ih h.2)

theorem recoversEach_pieces {encode : α → Except Error Bytes} {xs : List α}
    (h : ∀ x ∈ xs, ∀ part, encode x = .ok part → d.Recovers part.toList x)
    (hpart : Bytes.pieces encode xs = .ok part) : d.RecoversEach part xs := by
  induction xs generalizing part with
  | nil =>
    cases hpart
    exact recoversEach_nil
  | cons x xs ih =>
    simp only [Bytes.pieces, Except.bind_eq_ok_iff, Except.pure_eq_ok_iff] at hpart
    obtain ⟨head, hx, tail, htail, rfl⟩ := hpart
    rw [List.forall_mem_cons] at h
    exact (h.1 head hx).cons (ih h.2 htail)

theorem RecoversEach.gather {xs : Array α} {n : Nat} (h : d.RecoversEach part xs.toList)
    (hn : xs.size = n) : (DexGraph.gather n d).Recovers part xs :=
  fun data p hat => reads_gather_iff.mpr ⟨hn, h data p hat⟩

/-! ## Decoders that only look at what they read -/

/-- What is read depends on the bytes from which it is read, and on nothing else. -/
def Portable (d : Decoder α) : Prop :=
  ∀ data p a q, d.Reads data p a q →
    ∃ part, data.HoldsAt p part ∧ q = p + part.length ∧ d.Recovers part a

theorem portable_pure : (pure a : Decoder α).Portable := by
  intro data p b q h
  obtain ⟨rfl, rfl⟩ := reads_pure_iff.mp h
  exact ⟨[], Bytes.holdsAt_nil data q, rfl, recovers_pure⟩

theorem Portable.bind (hd : d.Portable) (hf : ∀ a, (f a).Portable) : (d >>= f).Portable := by
  intro data p b r h
  obtain ⟨a, q, ha, hb⟩ := reads_bind_iff.mp h
  obtain ⟨part, hpart, rfl, hrecovers⟩ := hd data p a q ha
  obtain ⟨rest, hrest, rfl, hrecovers'⟩ := hf a data _ b r hb
  exact ⟨part ++ rest, Bytes.holdsAt_append.mpr ⟨hpart, hrest⟩, by
    rw [List.length_append, Nat.add_assoc], hrecovers.bind hrecovers'⟩

theorem portable_unsignedLeb : unsignedLeb.Portable := by
  intro data p v q h
  obtain ⟨gs, hterminated, hlen, hat, rfl, rfl⟩ := reads_unsignedLeb_iff.mp h
  exact ⟨gs, hat, rfl, fun _ _ hat => reads_unsignedLeb_iff.mpr ⟨gs, hterminated, hlen, hat, rfl, rfl⟩⟩

theorem portable_signedLeb : signedLeb.Portable := by
  intro data p v q h
  obtain ⟨gs, hterminated, hlen, hat, rfl, rfl⟩ := reads_signedLeb_iff.mp h
  exact ⟨gs, hat, rfl, fun _ _ hat => reads_signedLeb_iff.mpr ⟨gs, hterminated, hlen, hat, rfl, rfl⟩⟩

theorem Portable.discard (hd : d.Portable) : (Functor.discard d).Portable :=
  hd.bind fun _ => portable_pure

theorem Portable.times {d : Decoder Unit} (hd : d.Portable) (n : Nat) : (times n d).Portable := by
  induction n with
  | zero => exact portable_pure
  | succ n ih => exact hd.bind fun _ => ih

/-- Of two byte strings from which a decoder reads, neither is a proper beginning of the other. -/
theorem Recovers.eq_of_begins {whole : List UInt8} {c : α} (h : d.Recovers part a)
    (h' : d.Recovers whole c) (hbegins : part <+: whole) : part = whole := by
  have hwhole := Bytes.holdsAt_whole whole.toArray
  have hpart : Bytes.HoldsAt whole.toArray 0 part := by
    obtain ⟨tail, rfl⟩ := hbegins
    exact (Bytes.holdsAt_append.mp hwhole).1
  have hstop := ((h _ 0 hpart).unique (h' _ 0 hwhole)).2
  exact hbegins.eq_of_length (by omega)

/-- Nothing is read where the bytes are cut short. -/
theorem Portable.exists_error (hd : d.Portable) (h : d.Recovers part a) {k : Nat}
    (hk : k < part.length) (before : List UInt8) :
    ∃ e, d.runAt (before ++ part.take k).toArray before.length = .error e := by
  cases hrun : d.runAt (before ++ part.take k).toArray before.length with
  | error e => exact ⟨e, rfl⟩
  | ok out =>
    obtain ⟨c, stop⟩ := out
    obtain ⟨found, hat, -, hrecovers⟩ := hd _ _ c stop hrun
    have hfound : found <+: part.take k := by
      rw [List.prefix_iff_getElem?]
      intro i hi
      have hget := hat i _ (List.getElem?_eq_getElem hi)
      rwa [List.getElem?_toArray, List.getElem?_append_right (Nat.le_add_right ..),
        Nat.add_sub_cancel_left] at hget
    have hlength : found.length ≤ k := by
      have := hfound.length_le
      rw [List.length_take] at this
      omega
    have htake := List.take_prefix k part
    rw [hrecovers.eq_of_begins h (hfound.trans htake)] at hlength
    omega

end DexGraph.Decoder
