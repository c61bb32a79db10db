import DexGraph.Proofs.Assembly.Rewriting
import DexGraph.Proofs.Assembly.Sharing

/-!
# Catch handlers are shared exactly

The handlers of a body come from two passes over the same list: the try ranges name some of them by
their offsets, and a walk from entry to entry finds the others. `Dex.ofImage_handlers` says that
no handler is there twice and none is missing, whatever the list is: the try ranges may point between
the entries of the walk, and entries may be stored with more bytes than necessary. Where the entries
start is said without regard to what they hold, by passing over one after the other.
-/

namespace DexGraph

open Decoder

/-! ## What is stored -/

/-- The entries that follow each other from `p` on start at the given positions, and the last of them
ends at `q`. -/
def CatchHandler.EntriesAt (data : Bytes) : (p : Nat) → List Nat → (q : Nat) → Prop
  | p, [], q => q = p
  | p, start :: rest, q =>
    start = p ∧ ∃ r, skip.Reads data p () r ∧ EntriesAt data r rest q

/-- The try ranges of a body as they are stored, where its list of handlers starts, and where the
entries of this list start. -/
structure StoredCatches where
  tries : List StoredTry
  listStart : Nat
  entries : List Nat

/-- The try ranges are stored from `p` on. The number of handlers and as many entries follow, up
to `q`. -/
def StoredCatches.LiesAt (stored : StoredCatches) (data : Bytes) (p q : Nat) : Prop :=
  ReadsEach StoredTry.decode data p stored.tries stored.listStart ∧
    ∃ count start, unsignedLeb.Reads data stored.listStart count start ∧
      stored.entries.length = count.toNat ∧
      CatchHandler.EntriesAt data start stored.entries q

/-- The try ranges are the stored ones, and the handlers are those that the stored try ranges name or
that start where an entry does, each of them once. -/
structure Catches.Exact (g : Graph) (data : Bytes) (stored : StoredCatches) (c : Catches) :
    Prop where
  distinct : CatchHandler.Distinct c.handlers.toList
  dispatches : List.Forall₂ (Dispatches c.handlers) stored.tries c.tries.toList
  same_iff : ∀ {i j : Nat} {s s' : StoredTry} {t t' : TryRange}, stored.tries[i]? = some s →
    stored.tries[j]? = some s' → c.tries[i]? = some t → c.tries[j]? = some t' →
      (t.handler = t'.handler ↔ s.handlerOffset = s'.handlerOffset)
  entry : ∀ start ∈ stored.entries, ∃! i : Nat, ∃ h : CatchHandler, c.handlers[i]? = some h ∧
    stored.listStart + h.listOffset.toNat = start
  stems : ∀ h ∈ c.handlers, (∃ s ∈ stored.tries, s.handlerOffset = h.listOffset) ∨
    stored.listStart + h.listOffset.toNat ∈ stored.entries
  shown : ∀ h ∈ c.handlers, h.ShownIn g data stored.listStart

/-! ## What is read of it -/

variable {g : Graph} {data : Bytes} {p q listStart : Nat}

/-- Handlers that are walked through are the entries that are passed over. -/
theorem CatchHandler.WalkedFrom.entriesAt {handlers : List CatchHandler}
    (h : WalkedFrom g data listStart p handlers q) :
    EntriesAt data p (handlers.map fun x => listStart + x.listOffset.toNat) q := by
  induction handlers generalizing p with
  | nil => exact h
  | cons x rest ih =>
    obtain ⟨rfl, r, hread, hrest⟩ := h
    obtain ⟨-, -, -, hskip⟩ := exists_of_decode hread
    exact ⟨rfl, r, hskip, ih hrest⟩

/-- Handlers at one offset are at one position. -/
theorem CatchHandler.Distinct.eq_of_getElem? {handlers : Array CatchHandler}
    (h : Distinct handlers.toList) {i j : Nat} {x y : CatchHandler} (hx : handlers[i]? = some x)
    (hy : handlers[j]? = some y) (ho : x.listOffset = y.listOffset) : i = j := by
  rw [← Array.getElem?_toList] at hx hy
  obtain ⟨hi, rfl⟩ := List.getElem?_eq_some_iff.mp hx
  obtain ⟨hj, rfl⟩ := List.getElem?_eq_some_iff.mp hy
  have hpairwise := List.pairwise_iff_getElem.mp h
  rcases Nat.lt_trichotomy i j with hlt | heq | hlt
  · exact absurd ho (hpairwise i j hi hj hlt)
  · exact heq
  · exact absurd ho.symm (hpairwise j i hj hi hlt)

namespace Catches

/-- Try ranges share a handler if and only if the same offset is stored in both. -/
theorem same_iff_of_dispatches {handlers : Array CatchHandler}
    (hdistinct : CatchHandler.Distinct handlers.toList) {s s' : StoredTry} {t t' : TryRange}
    (h : Dispatches handlers s t) (h' : Dispatches handlers s' t') :
    t.handler = t'.handler ↔ s.handlerOffset = s'.handlerOffset := by
  obtain ⟨-, -, x, hx, ho⟩ := h
  obtain ⟨-, -, x', hx', ho'⟩ := h'
  constructor
  · intro heq
    rw [heq, hx', Option.some.injEq] at hx
    rw [← ho, ← ho', hx]
  · intro heq
    exact hdistinct.eq_of_getElem? hx hx' (by rw [ho, ho', heq])

/-- Whatever is stored, what is read of it has every handler once. -/
theorem exact_of_decode {tryCount : Nat} {c : Catches}
    (h : (decode g tryCount).Reads data p c q) : ∃ stored : StoredCatches,
      stored.tries.length = tryCount ∧ stored.LiesAt data p q ∧ c.Exact g data stored := by
  unfold decode at h
  obtain ⟨tries, listStart, hgather, hlist⟩ := reads_bind_iff.mp h
  obtain ⟨_, _, hposition, hcatches⟩ := reads_bind_iff.mp hlist
  obtain ⟨rfl, rfl⟩ := reads_position_iff.mp hposition
  obtain ⟨c₀, p₀, hfold, hhandlers⟩ := reads_bind_iff.mp hcatches
  obtain ⟨count, start, hcount, hlisted⟩ := reads_bind_iff.mp hhandlers
  obtain ⟨hlength, htries⟩ := reads_gather_iff.mp hgather
  rw [← Array.foldlM_toList] at hfold
  obtain ⟨rfl, hc₀, -, ⟨new, hnew, hdispatch⟩, hfrom₀⟩ := exists_of_addTries readFrom_empty hfold
  have hle := Decoder.le_of_unsignedLeb hcount
  obtain ⟨hc, hprefix, hkept, walked, hsteps, hwalked, hsub, hfrom⟩ :=
    exists_of_addListed hc₀ (by omega) hlisted
  have hdispatch : List.Forall₂ (Dispatches c.handlers) tries.toList c.tries.toList := by
    rw [hkept, hnew, empty, List.nil_append]
    exact hdispatch.imp fun _ _ hd => hd.mono hprefix
  refine ⟨⟨tries.toList, _, walked.map fun x => _ + x.listOffset.toNat⟩, by simpa using hlength,
    ⟨htries, count, start, hcount, by simpa using hsteps, hwalked.entriesAt⟩, hc.distinct, hdispatch,
    fun hs hs' ht ht' => ?_, fun e he => ?_, fun x hx => ?_, hc.shown⟩
  · rw [← Array.getElem?_toList] at ht ht'
    have hall := List.forall₂_iff_get.mp hdispatch
    obtain ⟨hi, rfl⟩ := List.getElem?_eq_some_iff.mp hs
    obtain ⟨hj, rfl⟩ := List.getElem?_eq_some_iff.mp hs'
    obtain ⟨hi', rfl⟩ := List.getElem?_eq_some_iff.mp ht
    obtain ⟨hj', rfl⟩ := List.getElem?_eq_some_iff.mp ht'
    exact same_iff_of_dispatches hc.distinct (hall.2 _ hi hi') (hall.2 _ hj hj')
  · obtain ⟨x, hx, rfl⟩ := List.mem_map.mp he
    obtain ⟨i, hi⟩ := Array.getElem?_of_mem (hsub x hx)
    refine ⟨i, ⟨x, hi, rfl⟩, ?_⟩
    rintro j ⟨y, hy, ho⟩
    exact hc.distinct.eq_of_getElem? hy hi (UInt16.toNat_inj.mp (Nat.add_left_cancel ho))
  · rcases hfrom x hx with hx | hx
    · rcases hfrom₀ x hx with hx | ⟨s, hs, ho⟩
      · simp [empty] at hx
      · exact .inl ⟨s, hs, ho.symm⟩
    · exact .inr (List.mem_map_of_mem hx)

end Catches

/-! ## Bodies -/

/-- Where the try ranges of a body start that lies at an offset. -/
def CodeHeader.triesStart (header : CodeHeader) (offset : Nat) : Nat :=
  offset + 16 + 2 * header.unitCount.toNat + if header.unitCount % 2 == 1 then 2 else 0

theorem Decoder.ReadsEach.eq_add {α : Type} {d : Decoder α} {size : Nat} {xs : List α}
    (hd : ∀ p x q, d.Reads data p x q → q = p + size) (h : ReadsEach d data p xs q) :
    q = p + size * xs.length := by
  induction xs generalizing p with
  | nil => exact h
  | cons x rest ih =>
    obtain ⟨r, hx, hrest⟩ := h
    rw [ih hrest, hd p x r hx, List.length_cons, Nat.mul_succ]
    omega

theorem CodeHeader.stop_of_decode {header : CodeHeader}
    (h : CodeHeader.decode.Reads data p header q) : q = p + 16 := by
  simp only [CodeHeader.decode, reads_halfWord_bind_iff, reads_word_bind_iff, reads_pure_iff] at h
  obtain ⟨_, -, _, -, _, -, _, -, _, -, _, -, -, rfl⟩ := h
  rfl

/-- What is read of a body with try ranges. -/
theorem CodeItem.exists_of_decode {debugInfo : Option (Ref .debugInfo)} {code : CodeItem}
    (h : (decode g debugInfo).Reads data p code q) (hne : code.tries ≠ #[]) :
    ∃ header, CodeHeader.decode.Reads data p header (p + 16) ∧
      (Catches.decode g header.tryCount.toNat).Reads data (header.triesStart p)
        ⟨code.tries, code.handlers⟩ q := by
  obtain ⟨header, _, hheader, h⟩ := reads_bind_iff.mp h
  obtain rfl := CodeHeader.stop_of_decode hheader
  obtain ⟨units, p₁, hunits, h⟩ := reads_bind_iff.mp h
  obtain ⟨hcount, hunits⟩ := reads_gather_iff.mp hunits
  have hp₁ : p₁ = p + 16 + 2 * header.unitCount.toNat := by
    rw [hunits.eq_add fun _ _ _ hunit => (reads_halfWord_iff.mp hunit).2, Array.length_toList, hcount]
  refine ⟨header, hheader, ?_⟩
  split at h
  · obtain ⟨rfl, -⟩ := reads_pure_iff.mp h
    exact absurd rfl hne
  · unfold CodeHeader.triesStart
    rw [← hp₁]
    split at h
    · obtain ⟨_, p₂, hpadding, h⟩ := reads_bind_iff.mp h
      obtain ⟨-, rfl⟩ := reads_advance_iff.mp hpadding
      obtain ⟨c, _, hc, hpure⟩ := reads_bind_iff.mp h
      obtain ⟨rfl, rfl⟩ := reads_pure_iff.mp hpure
      rw [if_pos ‹_›]
      exact hc
    · obtain ⟨c, _, hc, hpure⟩ := reads_bind_iff.mp h
      obtain ⟨rfl, rfl⟩ := reads_pure_iff.mp hpure
      rw [if_neg ‹_›]
      exact hc

/-! ## Images -/

/-- Whatever the image, a body with try ranges has every handler once: two of its try ranges share a
handler if and only if the same offset is stored in both, every entry of the list of handlers is
one of its handlers, it has no handlers beside those and the ones that the try ranges name, and all
of them are what is read at their offsets. -/
theorem Dex.ofImage_handlers {options : BuildOptions} {image : Image} {d : Dex}
    (h : ofImage options image = .ok d) :
    ∃ map v, MapList.read image.data image.header.mapOffset = .ok map ∧
      d.graph.Shares ⟨image.data, image.header, map, options⟩ v ∧
      ∀ (r : Ref .codeItem) (code : CodeItem), d.graph.get? r = some code → code.tries ≠ #[] →
        ∃ (offset : UInt32) (header : CodeHeader) (stored : StoredCatches) (stop : Nat),
          v.find? .codeItem offset = some r ∧
          CodeHeader.decode.Reads image.data offset.toNat header (offset.toNat + 16) ∧
          stored.tries.length = header.tryCount.toNat ∧
          stored.LiesAt image.data (header.triesStart offset.toNat) stop ∧
          Catches.Exact d.graph image.data stored ⟨code.tries, code.handlers⟩ := by
  rcases ofImage_outcome options image with
    ⟨e, he, -⟩ | ⟨map, hmap, ⟨e, he, -⟩ | ⟨a, classes, ha, hcomplete⟩⟩
  · cases he.symm.trans h
  · cases he.symm.trans h
  cases ha.symm.trans h
  refine ⟨map, a.view image.data, hmap, hcomplete.shares, fun r code hcode hne => ?_⟩
  obtain ⟨offset, q, hfind, hreads⟩ := hcomplete.built.reads_body hcode
  obtain ⟨header, hheader, hcatches⟩ := CodeItem.exists_of_decode hreads hne
  obtain ⟨stored, hlength, hlies, hexact⟩ := Catches.exact_of_decode hcatches
  exact ⟨offset, header, stored, q, hfind, hheader, hlength, hlies, hexact⟩

namespace Dex

/-- The graph with one method, where its body has two try ranges that share a handler and a third
one with a handler of its own. -/
def threeTries : Graph :=
  { Graph.oneMethod with
    codeItems := .ofItems
      [⟨1, 0, 0, some ⟨0⟩, #[0x000E], #[⟨0, 1, 0⟩, ⟨1, 1, 0⟩, ⟨2, 1, 1⟩],
        #[⟨true, 1, #[⟨none, 0⟩]⟩, ⟨true, 3, #[⟨none, 0⟩]⟩]⟩] }

/-- The image of three tries is read when its last try range is made to point into the middle of the
first handler. The body then has three handlers, of which one is found by the walk alone. -/
theorem ofImage_handlers_threeTries : ∃ image d, ofImage .relayout image = .ok d ∧
    (∃ code, d.graph.get? (s := .codeItem) ⟨0⟩ = some code ∧ code.tries.size = 3 ∧
      code.handlers.toList.map (·.listOffset) = [1, 2, 3]) ∧
    ∃ map v, MapList.read image.data image.header.mapOffset = .ok map ∧
      d.graph.Shares ⟨image.data, image.header, map, .relayout⟩ v ∧
      ∀ (r : Ref .codeItem) (code : CodeItem), d.graph.get? r = some code → code.tries ≠ #[] →
        ∃ (offset : UInt32) (header : CodeHeader) (stored : StoredCatches) (stop : Nat),
          v.find? .codeItem offset = some r ∧
          CodeHeader.decode.Reads image.data offset.toNat header (offset.toNat + 16) ∧
          stored.tries.length = header.tryCount.toNat ∧
          stored.LiesAt image.data (header.triesStart offset.toNat) stop ∧
          Catches.Exact d.graph image.data stored ⟨code.tries, code.handlers⟩ := by
  have hread : (((threeTries.write .relayout .empty).1.toOption.bind fun bytes =>
      read? (bytes.overlay 226 #[2])).bind fun d => (d.graph.get? (s := .codeItem) ⟨0⟩).map
        fun code => (code.tries.size, code.handlers.toList.map (·.listOffset))) =
      some (3, [1, 2, 3]) := by
    unfold read? ofImage
    simp only [Graph.write, Writer.writeImage, Writer.closeImage, Writer.stampHeader,
      FileHeader.store, Stream.contents, Bytes.overlay_eq_laid, Image.data_eq_take,
      Writer.writeMapList, mapListOf, MapEntry.mergeSort_le]
    decide +kernel
  obtain ⟨d, hread, hcode⟩ := Option.bind_eq_some_iff.mp hread
  obtain ⟨bytes, -, hread⟩ := Option.bind_eq_some_iff.mp hread
  obtain ⟨code, hcode, hshape⟩ := Option.map_eq_some_iff.mp hcode
  obtain ⟨htries, hhandlers⟩ := Prod.mk.inj hshape
  obtain ⟨image, himage⟩ := exists_ofImage_of_read? hread
  exact ⟨image, d, himage, ⟨code, hcode, htries, hhandlers⟩, ofImage_handlers himage⟩

end Dex

end DexGraph
