import DexGraph.Proofs.Codec.CodeShape
import DexGraph.Proofs.Codec.Handlers

/-!
# Lists of catch handlers

The handlers of a body are met in two ways: a try range names one by its offset, and the list is
walked through from one handler to the next. This file says what is met in either way
(`Catches.exists_of_addTries`, `Catches.exists_of_addListed`), whatever the bytes are, and that
handlers which follow each other in shortest form are all met by the walk.
-/

namespace DexGraph

open Decoder

variable {g : Graph} {data : Bytes} {listStart : Nat}

namespace CatchHandler

/-! ## Handlers by their offsets -/

/-- The list that starts at `listStart` shows the handler at its offset. -/
def ShownIn (g : Graph) (data : Bytes) (listStart : Nat) (h : CatchHandler) : Prop :=
  ∃ q, (decode g h.listOffset).Reads data (listStart + h.listOffset.toNat) h q

/-- An offset shows one handler at most. -/
theorem ShownIn.unique {h h' : CatchHandler} (hs : h.ShownIn g data listStart)
    (hs' : h'.ShownIn g data listStart) (ho : h.listOffset = h'.listOffset) : h = h' := by
  obtain ⟨q, hread⟩ := hs
  obtain ⟨q', hread'⟩ := hs'
  rw [ho] at hread
  exact (hread.unique hread').1

theorem ShownIn.of_holdsAt {h : CatchHandler} (hproper : h.Proper g)
    (hat : data.HoldsAt (listStart + h.listOffset.toNat) h.encode.toList) :
    h.ShownIn g data listStart :=
  ⟨_, decode_recovers hproper _ _ hat⟩

/-- No two of the handlers have the same offset. -/
def Distinct (handlers : List CatchHandler) : Prop :=
  handlers.Pairwise fun h h' => h.listOffset ≠ h'.listOffset

theorem Distinct.nodup {handlers : List CatchHandler} (h : Distinct handlers) : handlers.Nodup :=
  List.Pairwise.imp (fun hne heq => hne (congrArg listOffset heq)) h

theorem positionOf?_eq_some {handlers : Array CatchHandler} {o : UInt16} {i : Nat}
    (h : positionOf? handlers o = some i) : ∃ x, handlers[i]? = some x ∧ x.listOffset = o := by
  obtain ⟨hi, hx, -⟩ := Array.findIdx?_eq_some_iff_getElem.mp h
  exact ⟨handlers[i], Array.getElem?_eq_getElem hi, beq_iff_eq.mp hx⟩

theorem positionOf?_eq_none_iff {handlers : Array CatchHandler} {o : UInt16} :
    positionOf? handlers o = none ↔ ∀ x ∈ handlers, x.listOffset ≠ o := by
  simp [positionOf?]

/-! ## Handlers that follow each other -/

/-- From the offset `p` of the list on, the handlers follow each other in shortest form. -/
def Contiguous : (p : Nat) → List CatchHandler → Prop
  | _, [] => True
  | p, h :: rest => h.listOffset.toNat = p ∧ Contiguous (p + h.encode.size) rest

/-- The two handlers take up different bytes of the list. -/
def Apart (h h' : CatchHandler) : Prop :=
  h.listOffset.toNat + h.encode.size ≤ h'.listOffset.toNat ∨
    h'.listOffset.toNat + h'.encode.size ≤ h.listOffset.toNat

theorem Apart.symm {h h' : CatchHandler} (hapart : h.Apart h') : h'.Apart h :=
  Or.symm hapart

theorem Contiguous.le {p : Nat} {handlers : List CatchHandler} (h : Contiguous p handlers) :
    ∀ x ∈ handlers, p ≤ x.listOffset.toNat := by
  induction handlers generalizing p with
  | nil => simp
  | cons y rest ih =>
    obtain ⟨rfl, hrest⟩ := h
    refine List.forall_mem_cons.mpr ⟨Nat.le_refl _, fun x hx => ?_⟩
    exact Nat.le_trans (Nat.le_add_right ..) (ih hrest x hx)

theorem Contiguous.apart {p : Nat} {handlers : List CatchHandler} (h : Contiguous p handlers) :
    handlers.Pairwise Apart := by
  induction handlers generalizing p with
  | nil => exact .nil
  | cons y rest ih =>
    obtain ⟨rfl, hrest⟩ := h
    exact .cons (fun x hx => .inl (hrest.le x hx)) (ih hrest)

/-- Where the walk goes that meets the handlers: each starts where the one before it ended. -/
def WalkedFrom (g : Graph) (data : Bytes) (listStart : Nat) :
    (p : Nat) → List CatchHandler → (q : Nat) → Prop
  | p, [], q => q = p
  | p, h :: rest, q => p = listStart + h.listOffset.toNat ∧
      ∃ r, (decode g h.listOffset).Reads data p h r ∧ WalkedFrom g data listStart r rest q

/-- What is walked through later lies further behind. -/
theorem WalkedFrom.le {p q : Nat} {handlers : List CatchHandler}
    (h : WalkedFrom g data listStart p handlers q) :
    ∀ x ∈ handlers, p ≤ listStart + x.listOffset.toNat := by
  induction handlers generalizing p with
  | nil => simp
  | cons y rest ih =>
    obtain ⟨rfl, r, hread, hrest⟩ := h
    obtain ⟨-, -, hle, -⟩ := exists_of_decode hread
    refine List.forall_mem_cons.mpr ⟨Nat.le_refl _, fun x hx => ?_⟩
    exact Nat.le_trans (Nat.le_trans (Nat.le_add_right ..) hle) (ih hrest x hx)

/-- Handlers that are walked through do not overlap, in their shortest form. -/
theorem WalkedFrom.apart {p q : Nat} {handlers : List CatchHandler}
    (h : WalkedFrom g data listStart p handlers q) : handlers.Pairwise Apart := by
  induction handlers generalizing p with
  | nil => exact .nil
  | cons y rest ih =>
    obtain ⟨rfl, r, hread, hrest⟩ := h
    obtain ⟨-, -, hle, -⟩ := exists_of_decode hread
    refine .cons (fun x hx => .inl ?_) (ih hrest)
    have := hrest.le x hx
    omega

theorem encode_size_pos (h : CatchHandler) : 0 < h.encode.size := by
  rw [← Array.length_toList, toList_encode, List.length_append, Array.length_toList]
  have := (Leb128.signedGroups_maxGroups h.statedSize).1.ne_nil
  have := List.length_pos_iff.mpr this
  change 0 < (Leb128.signedGroups Leb128.maxGroups h.statedSize).length + _
  omega

theorem distinct_of_apart {handlers : List CatchHandler} (h : handlers.Pairwise Apart) :
    Distinct handlers := by
  refine h.imp fun {a b} hapart heq => ?_
  have ha := a.encode_size_pos
  have hb := b.encode_size_pos
  rcases hapart with hle | hle <;> rw [heq] at hle <;> omega

/-- Handlers whose shortest forms stand where they are walked through follow each other. -/
theorem WalkedFrom.contiguous {p q : Nat} {handlers : List CatchHandler}
    (h : WalkedFrom g data listStart (listStart + p) handlers q)
    (hat : ∀ x ∈ handlers, data.HoldsAt (listStart + x.listOffset.toNat) x.encode.toList) :
    Contiguous p handlers := by
  induction handlers generalizing p with
  | nil => trivial
  | cons y rest ih =>
    rw [List.forall_mem_cons] at hat
    obtain ⟨hp, r, hread, hrest⟩ := h
    obtain ⟨-, hproper, -, -⟩ := exists_of_decode hread
    have hr := (hread.unique (decode_recovers hproper _ _ (hp ▸ hat.1))).2
    rw [Array.length_toList, Nat.add_assoc] at hr
    exact ⟨by omega, ih (hr ▸ hrest) hat.2⟩

/-- The walk goes through handlers that follow each other, and through no others. -/
theorem WalkedFrom.eq_of_contiguous {p q : Nat} {walked handlers : List CatchHandler}
    (h : WalkedFrom g data listStart (listStart + p) walked q) (hcontiguous : Contiguous p handlers)
    (hlength : walked.length = handlers.length) (hproper : ∀ x ∈ handlers, x.Proper g)
    (hat : ∀ x ∈ handlers, data.HoldsAt (listStart + x.listOffset.toNat) x.encode.toList) :
    walked = handlers := by
  induction handlers generalizing p walked with
  | nil => exact List.length_eq_zero_iff.mp hlength
  | cons y rest ih =>
    rw [List.forall_mem_cons] at hproper hat
    obtain ⟨rfl, hrest⟩ := hcontiguous
    cases walked with
    | nil => cases hlength
    | cons x walked =>
      obtain ⟨hplace, r, hread, hwalked⟩ := h
      have ho : x.listOffset = y.listOffset := UInt16.toNat_inj.mp (by omega)
      rw [ho] at hread
      obtain ⟨rfl, rfl⟩ := hread.unique (decode_recovers hproper.1 _ _ hat.1)
      rw [Array.length_toList, Nat.add_assoc] at hwalked
      rw [ih hwalked hrest (Nat.succ.inj hlength) hproper.2 hat.2]

end CatchHandler

namespace Catches

open CatchHandler

variable {c c' : Catches} {p q : Nat}

/-! ## What is met -/

/-- What has been read so far: the list shows each of the handlers, and none of them twice. -/
structure ReadFrom (g : Graph) (data : Bytes) (listStart : Nat) (c : Catches) : Prop where
  distinct : Distinct c.handlers.toList
  shown : ∀ h ∈ c.handlers, h.ShownIn g data listStart

theorem readFrom_empty : empty.ReadFrom g data listStart :=
  ⟨.nil, by simp [empty]⟩

theorem ReadFrom.push (hc : c.ReadFrom g data listStart) {h : CatchHandler}
    (hnew : positionOf? c.handlers h.listOffset = none) (hh : h.ShownIn g data listStart)
    (tries : Array TryRange) : ReadFrom g data listStart ⟨tries, c.handlers.push h⟩ where
  distinct := by
    rw [positionOf?_eq_none_iff] at hnew
    rw [Array.toList_push]
    exact List.pairwise_append.mpr ⟨hc.distinct, List.pairwise_singleton .., fun x hx y hy => by
      rw [List.mem_singleton.mp hy]
      exact hnew x (Array.mem_toList_iff.mp hx)⟩
  shown x hx := by
    rcases Array.mem_push.mp hx with hx | rfl
    · exact hc.shown x hx
    · exact hh

/-- The try range is the stored one, and its handler is the one that lies at the stored offset. -/
def Dispatches (handlers : Array CatchHandler) (stored : StoredTry) (t : TryRange) : Prop :=
  t.start = stored.start ∧ t.count = stored.count ∧
    ∃ h, handlers[t.handler]? = some h ∧ h.listOffset = stored.handlerOffset

theorem Dispatches.mono {handlers handlers' : Array CatchHandler} {stored : StoredTry}
    {t : TryRange} (h : Dispatches handlers stored t)
    (hle : handlers.toList <+: handlers'.toList) : Dispatches handlers' stored t := by
  obtain ⟨hstart, hcount, x, hx, ho⟩ := h
  refine ⟨hstart, hcount, x, ?_, ho⟩
  obtain ⟨rest, hrest⟩ := hle
  rw [← Array.getElem?_toList] at hx ⊢
  rw [← hrest, List.getElem?_append_left (List.getElem?_eq_some_iff.mp hx).1, hx]

/-- A try range is added with its handler, which is read if it has not been met. -/
theorem exists_of_addTry (hc : c.ReadFrom g data listStart) {stored : StoredTry}
    (h : (addTry g listStart c stored).Reads data p c' q) :
    q = p ∧ c'.ReadFrom g data listStart ∧ c.handlers.toList <+: c'.handlers.toList ∧
      (∃ t, c'.tries = c.tries.push t ∧ Dispatches c'.handlers stored t) ∧
      ∀ x ∈ c'.handlers, x ∈ c.handlers ∨ x.listOffset = stored.handlerOffset := by
  unfold addTry at h
  cases hposition : positionOf? c.handlers stored.handlerOffset with
  | some i =>
    rw [hposition] at h
    obtain ⟨rfl, rfl⟩ := reads_pure_iff.mp h
    obtain ⟨x, hx, ho⟩ := positionOf?_eq_some hposition
    exact ⟨rfl, ⟨hc.distinct, hc.shown⟩, List.prefix_refl _, ⟨_, rfl, rfl, rfl, x, hx, ho⟩,
      fun y hy => .inl hy⟩
  | none =>
    rw [hposition] at h
    obtain ⟨x, _, hx, hpure⟩ := reads_bind_iff.mp h
    obtain ⟨rfl, rfl⟩ := reads_pure_iff.mp hpure
    obtain ⟨⟨r, hread⟩, -, -, rfl⟩ := reads_elsewhere_iff.mp hx
    obtain ⟨ho, -⟩ := exists_of_decode hread
    rw [← ho] at hread hposition
    refine ⟨rfl, hc.push hposition ⟨r, hread⟩ _, ?_, ⟨_, rfl, rfl, rfl, x, ?_, ho⟩, fun y hy => ?_⟩
    · rw [Array.toList_push]
      exact List.prefix_append ..
    · simp
    · rcases Array.mem_push.mp hy with hy | rfl
      · exact .inl hy
      · exact .inr ho

/-- Whatever has been stored, the try ranges that are added are the stored ones, and every new
handler lies at an offset that one of them names. -/
theorem exists_of_addTries (hc : c.ReadFrom g data listStart) {stored : List StoredTry}
    (h : (stored.foldlM (addTry g listStart) c).Reads data p c' q) :
    q = p ∧ c'.ReadFrom g data listStart ∧ c.handlers.toList <+: c'.handlers.toList ∧
      (∃ new, c'.tries.toList = c.tries.toList ++ new ∧
        List.Forall₂ (Dispatches c'.handlers) stored new) ∧
      ∀ x ∈ c'.handlers, x ∈ c.handlers ∨ ∃ t ∈ stored, x.listOffset = t.handlerOffset := by
  induction stored generalizing c p with
  | nil =>
    obtain ⟨rfl, rfl⟩ := reads_pure_iff.mp h
    exact ⟨rfl, hc, List.prefix_refl _, ⟨[], by simp, .nil⟩, fun x hx => .inl hx⟩
  | cons s rest ih =>
    rw [List.foldlM_cons] at h
    obtain ⟨c₁, p₁, hfirst, hrest⟩ := reads_bind_iff.mp h
    obtain ⟨rfl, hc₁, hle₁, ⟨t, htries, hdispatch⟩, hfrom₁⟩ := exists_of_addTry hc hfirst
    obtain ⟨rfl, hc', hle, ⟨new, hnew, hall⟩, hfrom⟩ := ih hc₁ hrest
    refine ⟨rfl, hc', hle₁.trans hle, ⟨t :: new, ?_, .cons (hdispatch.mono hle) hall⟩,
      fun x hx => ?_⟩
    · rw [hnew, htries, Array.toList_push, List.append_assoc, List.singleton_append]
    · rcases hfrom x hx with hx | ⟨t, ht, ho⟩
      · rcases hfrom₁ x hx with hx | ho
        · exact .inl hx
        · exact .inr ⟨s, List.mem_cons_self, ho⟩
      · exact .inr ⟨t, List.mem_cons_of_mem _ ht, ho⟩

/-- Whatever stands in the list, the walk through it meets as many handlers as there are to be, and
these are the ones that are added, as far as they are new. -/
theorem exists_of_addListed (hc : c.ReadFrom g data listStart) {count : Nat} (hp : listStart ≤ p)
    (h : (addListed g listStart count c).Reads data p c' q) :
    c'.ReadFrom g data listStart ∧ c.handlers.toList <+: c'.handlers.toList ∧
      c'.tries = c.tries ∧ ∃ walked : List CatchHandler, walked.length = count ∧
        WalkedFrom g data listStart p walked q ∧ (∀ x ∈ walked, x ∈ c'.handlers) ∧
        ∀ x ∈ c'.handlers, x ∈ c.handlers ∨ x ∈ walked := by
  induction count generalizing c p with
  | zero =>
    obtain ⟨rfl, rfl⟩ := reads_pure_iff.mp h
    exact ⟨hc, List.prefix_refl _, rfl, [], rfl, rfl, by simp, fun x hx => .inl hx⟩
  | succ count ih =>
    simp only [addListed, reads_bind_iff, reads_position_iff, reads_ofExcept_iff,
      toHalfWord_eq_ok_iff] at h
    obtain ⟨p', p'', ⟨hp', hp''⟩, o, p₃, ⟨ho, hp₃⟩, h⟩ := h
    rw [hp₃, hp''] at h
    have hplace : p = listStart + o.toNat := by omega
    -- Whether the handler is known or not, it is the one that is read here.
    suffices hnext : ∃ x r c₁, (CatchHandler.decode g o).Reads data p x r ∧
        (addListed g listStart count c₁).Reads data r c' q ∧ c₁.ReadFrom g data listStart ∧
        c₁.tries = c.tries ∧ c.handlers.toList <+: c₁.handlers.toList ∧ x ∈ c₁.handlers ∧
        ∀ y ∈ c₁.handlers, y ∈ c.handlers ∨ y = x by
      obtain ⟨x, r, c₁, hread, hrest, hc₁, htries, hle₁, hx, hfrom₁⟩ := hnext
      obtain ⟨hxo, -, hle, -⟩ := exists_of_decode hread
      obtain ⟨hc', hle', htries', walked, hlen, hwalked, hmem, hfrom⟩ := ih hc₁ (by omega) hrest
      refine ⟨hc', hle₁.trans hle', htries'.trans htries, x :: walked, by simp [hlen],
        ⟨hxo ▸ hplace, r, hxo ▸ hread, hwalked⟩, ?_, fun y hy => ?_⟩
      · refine List.forall_mem_cons.mpr ⟨?_, hmem⟩
        exact Array.mem_toList_iff.mp (hle'.subset (Array.mem_toList_iff.mpr hx))
      · rcases hfrom y hy with hy | hy
        · rcases hfrom₁ y hy with hy | rfl
          · exact .inl hy
          · exact .inr List.mem_cons_self
        · exact .inr (List.mem_cons_of_mem _ hy)
    split at h
    · rename_i hknown
      obtain ⟨i, hi⟩ := Option.isSome_iff_exists.mp hknown
      obtain ⟨x, hx, hxo⟩ := positionOf?_eq_some hi
      have hmem : x ∈ c.handlers := Array.mem_of_getElem? hx
      obtain ⟨r, hread⟩ := hc.shown x hmem
      rw [hxo, ← hplace] at hread
      obtain ⟨_, r', hskip, hrest⟩ := reads_bind_iff.mp h
      obtain ⟨-, -, -, hpassed⟩ := exists_of_decode hread
      obtain rfl := (hskip.unique hpassed).2
      exact ⟨x, _, c, hread, hrest, hc, rfl, List.prefix_refl _, hmem, fun y hy => .inl hy⟩
    · rename_i hunknown
      obtain ⟨x, r, hread, hrest⟩ := reads_bind_iff.mp h
      obtain ⟨hxo, -⟩ := exists_of_decode hread
      refine ⟨x, r, _, hread, hrest, hc.push ?_ ⟨r, ?_⟩ _, rfl, ?_, by simp, fun y hy => ?_⟩
      · rw [hxo]
        simpa using hunknown
      · rw [hxo, ← hplace]
        exact hread
      · rw [Array.toList_push]
        exact List.prefix_append ..
      · exact (Array.mem_push.mp hy).imp_right id

/-- The handlers of a list that is read are shown by it, and there are as many try ranges as there
are to be. -/
theorem readFrom_of_decode {tryCount : Nat} (h : (decode g tryCount).Reads data p c q) :
    ∃ listStart, c.ReadFrom g data listStart ∧ c.tries.size = tryCount := by
  unfold decode at h
  obtain ⟨stored, start, hgather, hlist⟩ := reads_bind_iff.mp h
  obtain ⟨_, _, hposition, hcatches⟩ := reads_bind_iff.mp hlist
  obtain ⟨rfl, rfl⟩ := reads_position_iff.mp hposition
  obtain ⟨c₀, p₀, hfold, hhandlers⟩ := reads_bind_iff.mp hcatches
  obtain ⟨count, p₁, hcount, hlisted⟩ := reads_bind_iff.mp hhandlers
  rw [← Array.foldlM_toList] at hfold
  obtain ⟨rfl, hc₀, -, ⟨new, hnew, hall⟩, -⟩ := exists_of_addTries readFrom_empty hfold
  have hle := Decoder.le_of_unsignedLeb hcount
  obtain ⟨hc, -, htries, -⟩ := exists_of_addListed hc₀ (by omega) hlisted
  refine ⟨_, hc, ?_⟩
  rw [htries, ← Array.length_toList, hnew, empty, List.nil_append, ← hall.length_eq,
    Array.length_toList]
  exact (reads_gather_iff.mp hgather).1

/-! ## Handlers that are found -/

/-- Try ranges are read if handlers stand where they name them. -/
theorem exists_addTries {stored : List StoredTry} (hp : p ≤ data.size)
    (hat : ∀ t ∈ stored, ∃ h : CatchHandler, h.Proper g ∧ h.listOffset = t.handlerOffset ∧
      data.HoldsAt (listStart + h.listOffset.toNat) h.encode.toList) (c : Catches) :
    ∃ c', (stored.foldlM (addTry g listStart) c).Reads data p c' p := by
  induction stored generalizing c with
  | nil => exact ⟨c, reads_pure_iff.mpr ⟨rfl, rfl⟩⟩
  | cons t rest ih =>
    rw [List.forall_mem_cons] at hat
    obtain ⟨⟨h, hproper, ho, hheld⟩, hrest⟩ := hat
    obtain ⟨c₁, hfirst⟩ : ∃ c₁, (addTry g listStart c t).Reads data p c₁ p := by
      unfold addTry
      cases positionOf? c.handlers t.handlerOffset with
      | some i => exact ⟨_, reads_pure_iff.mpr ⟨rfl, rfl⟩⟩
      | none =>
        have hle := hheld.add_length_le (List.length_pos_iff.mp (by
          rw [Array.length_toList]
          exact h.encode_size_pos))
        rw [← ho]
        exact ⟨_, (reads_elsewhere_iff.mpr ⟨⟨_, decode_recovers hproper _ _ hheld⟩, by omega, hp,
          rfl⟩).bind (reads_pure_iff.mpr ⟨rfl, rfl⟩)⟩
    obtain ⟨c', hc'⟩ := ih hrest c₁
    exact ⟨c', by rw [List.foldlM_cons]; exact hfirst.bind hc'⟩

/-- The walk goes through handlers that follow each other. -/
theorem exists_addListed {handlers : List CatchHandler} (hproper : ∀ h ∈ handlers, h.Proper g)
    (hcontiguous : Contiguous p handlers)
    (hat : ∀ h ∈ handlers, data.HoldsAt (listStart + h.listOffset.toNat) h.encode.toList)
    (c : Catches) : ∃ c', (addListed g listStart handlers.length c).Reads data (listStart + p) c'
      (listStart + p + (handlers.map fun h => h.encode.size).sum) := by
  induction handlers generalizing p c with
  | nil => exact ⟨c, reads_pure_iff.mpr ⟨rfl, rfl⟩⟩
  | cons h rest ih =>
    rw [List.forall_mem_cons] at hproper hat
    obtain ⟨rfl, hrest⟩ := hcontiguous
    have hread := decode_recovers hproper.1 _ _ hat.1
    rw [Array.length_toList] at hread
    obtain ⟨-, -, -, hskip⟩ := exists_of_decode hread
    have hnext (c : Catches) := ih hproper.2 hrest hat.2 c
    simp only [← Nat.add_assoc] at hnext
    rw [List.map_cons, List.sum_cons, List.length_cons, addListed, ← Nat.add_assoc]
    have ho : toHalfWord (listStart + h.listOffset.toNat - listStart) = .ok h.listOffset :=
      toHalfWord_eq_ok_iff.mpr (Nat.add_sub_cancel_left ..)
    by_cases hknown : (positionOf? c.handlers h.listOffset).isSome = true
    · obtain ⟨c', hc'⟩ := hnext c
      refine ⟨c', (reads_position_iff.mpr ⟨rfl, rfl⟩).bind
        ((reads_ofExcept_iff.mpr ⟨ho, rfl⟩).bind ?_)⟩
      rw [if_pos hknown]
      exact hskip.bind hc'
    · obtain ⟨c', hc'⟩ := hnext { c with handlers := c.handlers.push h }
      refine ⟨c', (reads_position_iff.mpr ⟨rfl, rfl⟩).bind
        ((reads_ofExcept_iff.mpr ⟨ho, rfl⟩).bind ?_)⟩
      rw [if_neg hknown]
      exact hread.bind hc'

end Catches

end DexGraph
