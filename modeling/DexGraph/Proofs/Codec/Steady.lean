import DexGraph.Codec.ClassData
import DexGraph.Codec.CodeItem
import DexGraph.Codec.DebugInfo
import DexGraph.Codec.HiddenApi
import DexGraph.Codec.Lists
import DexGraph.Codec.Value
import DexGraph.Format.MapList
import DexGraph.Proofs.Bytes.Leb128
import DexGraph.Proofs.Codec.Concat
import DexGraph.Proofs.Graph.References

/-!
# Steady decoders

Some decoders look indices up in a graph. Such a decoder is steady if what it reads with one graph
it also reads with every graph whose sections have at least as many entries, if it goes forward and
never past the end, and if its errors are honest: none says that an item is there twice, and one
that says that an entry of a table is missing says how many entries the table has. All decoders of
the contents of entities are steady, and `Steady.bind` and `Steady.gather` show it along their
definitions; a decoder that looks nothing up is steady as a constant function of the graph.
-/

namespace DexGraph

/-- The error says that an item is there twice. -/
def Error.IsDuplicate (e : Error) : Prop :=
  ∃ s offset, e = .duplicateItem s offset

/-- The error has nothing to do with what is in a graph. -/
structure Error.Plain (e : Error) : Prop where
  not_duplicate : ¬ e.IsDuplicate
  not_missing : ∀ s i n, e ≠ .missingReference s i n

/-- The error does not say that an item is there twice, and it says that an entry of a table is
missing only if the table has as many entries as it says, and none of that index. -/
structure Error.Honest (g : Graph) (e : Error) : Prop where
  not_duplicate : ¬ e.IsDuplicate
  missing : ∀ s i n, e = .missingReference s i n → s.rowSize? ≠ none →
    n = g.count s ∧ n ≤ i.toNat

namespace Error

variable {e : Error}

theorem plain_outOfBounds : Plain outOfBounds where
  not_duplicate := by
    rintro ⟨s, o, h⟩
    cases h
  not_missing := by
    rintro s i n h
    cases h

theorem plain_malformed (defect : Defect) : (malformed defect).Plain where
  not_duplicate := by
    rintro ⟨s, o, h⟩
    cases h
  not_missing := by
    rintro s i n h
    cases h

theorem Plain.honest (h : e.Plain) (g : Graph) : e.Honest g :=
  ⟨h.not_duplicate, fun s i n he => absurd he (h.not_missing s i n)⟩

/-- Graphs with as many entries in their tables are the same to an error. -/
theorem Honest.congr {g g' : Graph} (h : e.Honest g)
    (hcount : ∀ s : Section, s.rowSize? ≠ none → g'.count s = g.count s) : e.Honest g' :=
  ⟨h.not_duplicate, fun s i n he hs => by rw [hcount s hs]; exact h.missing s i n he hs⟩

end Error

/-- Every section of the second graph has at least as many entries as in the first. -/
def Graph.Narrower (g g' : Graph) : Prop :=
  ∀ s, g.count s ≤ g'.count s

theorem Graph.resolve_eq_ok_iff {g : Graph} {s : Section} {index : UInt32} {r : Ref s} :
    g.resolve s index = .ok r ↔ r = ⟨index⟩ ∧ g.Has s r := by
  unfold Graph.resolve Collection.resolve Collection.refAt? Graph.Has Graph.count
  by_cases h : index.toNat < (g.entities s).size
  · simp only [if_pos h, Except.ok.injEq]
    constructor
    · rintro rfl
      exact ⟨rfl, h⟩
    · rintro ⟨rfl, -⟩
      rfl
  · simp only [if_neg h, reduceCtorEq, false_iff, not_and]
    rintro rfl
    exact h

theorem Graph.honest_of_resolve {g : Graph} {s : Section} {index : UInt32} {e : Error}
    (h : g.resolve s index = .error e) : e.Honest g := by
  unfold Graph.resolve Collection.resolve Collection.refAt? at h
  by_cases hlt : index.toNat < (g.entities s).size
  · rw [if_pos hlt] at h
    cases h
  · rw [if_neg hlt] at h
    cases h
    refine ⟨?_, fun t i n h _ => ?_⟩
    · rintro ⟨t, o, h⟩
      cases h
    · cases h
      exact ⟨rfl, Nat.not_lt.mp hlt⟩

theorem Graph.Narrower.resolve {g g' : Graph} (h : g.Narrower g') {s : Section} {index : UInt32}
    {r : Ref s} (hr : g.resolve s index = .ok r) : g'.resolve s index = .ok r := by
  rw [Graph.resolve_eq_ok_iff] at hr ⊢
  exact ⟨hr.1, Nat.lt_of_lt_of_le hr.2 (h s)⟩

theorem Graph.resolveOrNone_eq_ok_iff {g : Graph} {s : Section} {index : UInt32}
    {r : Option (Ref s)} :
    g.resolveOrNone s index = .ok r ↔
      r = (if index = noIndex then none else some ⟨index⟩) ∧ ∀ x ∈ r, g.Has s x := by
  unfold Graph.resolveOrNone Collection.resolveOrNone
  by_cases h : index = noIndex
  · simp only [if_pos h, Except.ok.injEq]
    constructor
    · rintro rfl
      simp
    · rintro ⟨rfl, -⟩
      rfl
  · simp only [if_neg h, Except.bind_eq_ok_iff, Except.pure_eq_ok_iff]
    constructor
    · rintro ⟨x, hx, rfl⟩
      obtain ⟨rfl, hhas⟩ := Graph.resolve_eq_ok_iff.mp hx
      exact ⟨rfl, fun y hy => Option.mem_some.mp hy ▸ hhas⟩
    · rintro ⟨rfl, hhas⟩
      exact ⟨_, Graph.resolve_eq_ok_iff.mpr ⟨rfl, hhas _ rfl⟩, rfl⟩

theorem Graph.honest_of_resolveOrNone {g : Graph} {s : Section} {index : UInt32} {e : Error}
    (h : g.resolveOrNone s index = .error e) : e.Honest g := by
  unfold Graph.resolveOrNone Collection.resolveOrNone at h
  split at h
  · cases h
  · cases hr : (g.entities s).resolve index with
    | ok r =>
      rw [hr] at h
      cases h
    | error e' =>
      rw [hr] at h
      cases h
      exact Graph.honest_of_resolve hr

theorem Graph.Narrower.resolveOrNone {g g' : Graph} (h : g.Narrower g') {s : Section}
    {index : UInt32} {r : Option (Ref s)} (hr : g.resolveOrNone s index = .ok r) :
    g'.resolveOrNone s index = .ok r := by
  rw [Graph.resolveOrNone_eq_ok_iff] at hr ⊢
  exact ⟨hr.1, fun x hx => Nat.lt_of_lt_of_le (hr.2 x hx) (h s)⟩

namespace Decoder

variable {α β : Type}

/-- Wherever the decoder starts, it stops there or further on, but never past the end. -/
def Forward (d : Decoder α) : Prop :=
  ∀ data p a q, d.Reads data p a q → p ≤ data.size → p ≤ q ∧ q ≤ data.size

/-- What the decoder reads does not change when sections of the graph grow, it goes forward, and its
errors are honest about the graph. -/
structure Steady (d : Graph → Decoder α) : Prop where
  reads : ∀ {g g' data p a q}, g.Narrower g' → (d g).Reads data p a q → (d g').Reads data p a q
  forward : ∀ g, (d g).Forward
  error : ∀ {g data p e}, (d g).runAt data p = .error e → e.Honest g

/-- A decoder that looks nothing up. -/
theorem Forward.steady {d : Decoder α} (hd : d.Forward)
    (h : ∀ {data p e}, d.runAt data p = .error e → e.Plain) : Steady fun _ => d where
  reads _ h := h
  forward _ := hd
  error {g _ _ _} he := (h he).honest g

/-- A decoder that stays where it is goes forward. -/
theorem forward_of_eq {d : Decoder α} (h : ∀ {data p a q}, d.Reads data p a q → q = p) :
    d.Forward := by
  intro data p a q hreads hp
  rw [h hreads]
  exact ⟨Nat.le_refl _, hp⟩

/-! ## Rules -/

theorem steady_pure {a : α} : Steady fun _ => pure a :=
  (forward_of_eq fun h => (reads_pure_iff.mp h).2).steady fun h => by cases h

theorem steady_fail {e : Error} (he : e.Plain) :
    Steady fun _ => (fail e : Decoder α) :=
  (forward_of_eq fun h => absurd h not_reads_fail).steady fun h => by
    cases h
    exact he

theorem Steady.bind {d : Graph → Decoder α} {f : α → Graph → Decoder β} (hd : Steady d)
    (hf : ∀ a, Steady (f a)) : Steady fun g => d g >>= fun a => f a g where
  reads hg h := by
    obtain ⟨a, r, ha, hb⟩ := reads_bind_iff.mp h
    exact (hd.reads hg ha).bind ((hf a).reads hg hb)
  forward g := by
    intro data p b q h hp
    obtain ⟨a, r, ha, hb⟩ := reads_bind_iff.mp h
    obtain ⟨hpr, hr⟩ := hd.forward g _ _ _ _ ha hp
    obtain ⟨hrq, hq⟩ := (hf a).forward g _ _ _ _ hb hr
    exact ⟨hpr.trans hrq, hq⟩
  error {g data p e} h := by
    rw [runAt_bind] at h
    split at h
    · exact (hf _).error h
    · rename_i hfirst
      cases h
      exact hd.error hfirst

theorem Steady.discard {d : Graph → Decoder α} (hd : Steady d) :
    Steady fun g => (Functor.discard (d g) : Decoder PUnit) := by
  have h := hd.bind (f := fun _ _ => pure PUnit.unit) fun _ => steady_pure
  refine ⟨fun hg h' => ?_, fun g => ?_, fun h' => ?_⟩
  · obtain ⟨a, ha⟩ := reads_discard_iff.mp h'
    exact (hd.reads hg ha).discard
  · intro data p u q h'
    obtain ⟨a, ha⟩ := reads_discard_iff.mp h'
    exact hd.forward g _ _ _ _ ha
  · exact h.error h'

theorem Steady.ite {c : Prop} [Decidable c] {d d' : Graph → Decoder α} (h : Steady d)
    (h' : Steady d') : Steady fun g => if c then d g else d' g := by
  by_cases hc : c
  · simpa only [if_pos hc] using h
  · simpa only [if_neg hc] using h'

theorem steady_gatherFrom {d : Graph → Decoder α} (hd : Steady d) (n : Nat) :
    ∀ done : Array α, Steady fun g => gatherFrom done n (d g) := by
  induction n with
  | zero => exact fun done => steady_pure
  | succ n ih => exact fun done => hd.bind fun a => ih (done.push a)

theorem Steady.gather {d : Graph → Decoder α} (hd : Steady d) {n : Nat} :
    Steady fun g => DexGraph.gather n (d g) :=
  steady_gatherFrom hd n #[]

theorem Steady.times {d : Graph → Decoder Unit} (hd : Steady d) {n : Nat} :
    Steady fun g => DexGraph.times n (d g) := by
  induction n with
  | zero => exact steady_pure
  | succ n ih => exact hd.bind fun _ => ih

theorem Steady.foldlM {γ : Type} {f : β → γ → Graph → Decoder β} {xs : Array γ}
    (hf : ∀ b x, Steady (f b x)) (b : β) :
    Steady fun g => xs.foldlM (fun b x => f b x g) b := by
  simp only [← Array.foldlM_toList]
  induction xs.toList generalizing b with
  | nil => exact steady_pure
  | cons x rest ih => exact (hf b x).bind fun b' => ih b'

theorem Steady.mapM {γ : Type} {f : γ → Graph → Decoder α} {xs : Array γ}
    (hf : ∀ x, Steady (f x)) : Steady fun g => xs.mapM fun x => f x g := by
  simp only [Array.mapM_eq_foldlM]
  exact Steady.foldlM (fun done x => (hf x).bind fun _ => steady_pure) #[]

/-! ## Primitives -/

theorem steady_ofExcept {x : Except Error α} (hx : ∀ e, x = .error e → e.Plain) :
    Steady fun _ => Decoder.ofExcept x := by
  refine (forward_of_eq fun h => (reads_ofExcept_iff.mp h).2).steady fun h => ?_
  cases x with
  | ok a => cases h
  | error e =>
    cases h
    exact hx _ rfl

theorem runAt_ofExcept_eq_error_iff {x : Except Error α} {data : Bytes} {p : Nat} {e : Error} :
    (Decoder.ofExcept x).runAt data p = .error e ↔ x = .error e := by
  cases x with
  | ok a => exact ⟨nofun, nofun⟩
  | error e' => exact ⟨fun h => by cases h; rfl, fun h => by cases h; rfl⟩

theorem steady_resolve {s : Section} {index : UInt32} :
    Steady fun g => Decoder.ofExcept (g.resolve s index) where
  reads hg h := by
    rw [reads_ofExcept_iff] at h ⊢
    exact ⟨hg.resolve h.1, h.2⟩
  forward _ := forward_of_eq fun h => (reads_ofExcept_iff.mp h).2
  error h := Graph.honest_of_resolve (runAt_ofExcept_eq_error_iff.mp h)

theorem steady_resolveOrNone {s : Section} {index : UInt32} :
    Steady fun g => Decoder.ofExcept (g.resolveOrNone s index) where
  reads hg h := by
    rw [reads_ofExcept_iff] at h ⊢
    exact ⟨hg.resolveOrNone h.1, h.2⟩
  forward _ := forward_of_eq fun h => (reads_ofExcept_iff.mp h).2
  error h := Graph.honest_of_resolveOrNone (runAt_ofExcept_eq_error_iff.mp h)

theorem steady_position : Steady fun _ => position :=
  (forward_of_eq fun h => (reads_position_iff.mp h).2).steady fun h => by cases h

theorem steady_remaining : Steady fun _ => remaining :=
  (forward_of_eq fun h => (reads_remaining_iff.mp h).2).steady fun h => by cases h

theorem forward_advance {step : Nat} : (advance step).Forward := by
  intro data p u q h _
  obtain ⟨hsize, rfl⟩ := reads_advance_iff.mp h
  exact ⟨Nat.le_add_right .., hsize⟩

theorem steady_advance {step : Nat} : Steady fun _ => advance step := by
  refine forward_advance.steady fun h => ?_
  unfold runAt advance at h
  split at h <;> cases h
  exact Error.plain_outOfBounds

theorem forward_byte : byte.Forward := by
  intro data p b q h _
  obtain ⟨hb, rfl⟩ := reads_byte_iff.mp h
  exact ⟨Nat.le_succ _, (Array.getElem?_eq_some_iff.mp hb).1⟩

theorem steady_byte : Steady fun _ => byte := by
  refine forward_byte.steady fun h => ?_
  unfold runAt byte at h
  split at h <;> cases h
  exact Error.plain_outOfBounds

theorem forward_bytes {n : Nat} : (bytes n).Forward := by
  intro data p part q h _
  obtain ⟨-, -, hsize, rfl⟩ := reads_bytes_iff.mp h
  exact ⟨Nat.le_add_right .., hsize⟩

theorem steady_bytes {n : Nat} : Steady fun _ => bytes n := by
  refine forward_bytes.steady fun h => ?_
  unfold runAt bytes at h
  split at h <;> cases h
  exact Error.plain_outOfBounds

theorem bounds_of_zeroAmong? {data : Bytes} {count p stop : Nat}
    (h : zeroAmong? data count p = some stop) : p ≤ stop ∧ stop < p + count := by
  induction count generalizing p with
  | zero => cases h
  | succ count ih =>
    unfold zeroAmong? at h
    split at h
    · cases h
      omega
    · have := ih h
      omega

theorem forward_cstring : cstring.Forward := by
  intro data p part q h hp
  unfold Reads runAt cstring at h
  split at h <;> cases h
  have := bounds_of_zeroAmong? ‹_›
  omega

theorem steady_cstring : Steady fun _ => cstring := by
  refine forward_cstring.steady fun h => ?_
  unfold runAt cstring at h
  split at h <;> cases h
  exact Error.plain_outOfBounds

/-- Reading elsewhere fails where there is no such position, or as the decoder does. -/
theorem eq_of_runAt_elsewhere {d : Decoder α} {target : Nat} {data : Bytes} {p : Nat} {e : Error}
    (h : (elsewhere target d).runAt data p = .error e) :
    e = .outOfBounds ∨ d.runAt data target = .error e := by
  have hposition : position.runAt data p = .ok (p, p) := rfl
  have hseek (there here : Nat) : (seek there).runAt data here =
      if there ≤ data.size then .ok ((), there) else .error .outOfBounds := rfl
  simp only [elsewhere, runAt_bind, hposition, hseek] at h
  by_cases htarget : target ≤ data.size
  · simp only [if_pos htarget] at h
    cases hd : d.runAt data target with
    | error e' =>
      simp only [hd] at h
      exact .inr h
    | ok out =>
      by_cases hp : p ≤ data.size
      · simp only [hd, if_pos hp] at h
        cases h
      · simp only [hd, if_neg hp] at h
        exact .inl (Except.error.inj h).symm
  · simp only [if_neg htarget] at h
    exact .inl (Except.error.inj h).symm

theorem Steady.elsewhere {d : Graph → Decoder α} (hd : Steady d) {target : Nat} :
    Steady fun g => Decoder.elsewhere target (d g) where
  reads hg h := by
    obtain ⟨⟨r, hr⟩, hrest⟩ := reads_elsewhere_iff.mp h
    exact reads_elsewhere_iff.mpr ⟨⟨r, hd.reads hg hr⟩, hrest⟩
  forward _ := forward_of_eq fun h => (reads_elsewhere_iff.mp h).2.2.2
  error {g _ _ _} h := by
    rcases eq_of_runAt_elsewhere h with rfl | h
    · exact Error.plain_outOfBounds.honest g
    · exact hd.error h

theorem steady_number {width : Nat} : Steady fun _ => number width :=
  steady_bytes.bind fun _ => steady_pure

theorem steady_signedNumber {width : Nat} : Steady fun _ => signedNumber width :=
  steady_number.bind fun _ => steady_pure

theorem steady_halfWord : Steady fun _ => halfWord :=
  steady_number.bind fun _ => steady_pure

theorem steady_word : Steady fun _ => word :=
  steady_number.bind fun _ => steady_pure

theorem steady_groups {e : Error} (he : e.Plain) (limit : Nat) :
    Steady fun _ => groups e limit := by
  induction limit with
  | zero => exact steady_fail he
  | succ limit ih =>
    exact steady_byte.bind fun _ => .ite steady_pure (ih.bind fun _ => steady_pure)

theorem steady_unsignedLeb : Steady fun _ => unsignedLeb :=
  steady_position.bind fun _ =>
    (steady_groups (Error.plain_malformed _) _).bind fun _ => steady_pure

theorem steady_signedLeb : Steady fun _ => signedLeb :=
  steady_position.bind fun _ =>
    (steady_groups (Error.plain_malformed _) _).bind fun _ => steady_pure

end Decoder

open Decoder

/-! ## Strings, lists and streams -/

theorem StringData.steady_decode : Steady fun _ => StringData.decode :=
  steady_unsignedLeb.bind fun _ => steady_cstring.bind fun _ => steady_pure

theorem TypeList.steady_decode : Steady TypeList.decode :=
  steady_word.bind fun _ => (Steady.gather (steady_halfWord.bind fun _ => steady_resolve)).bind
    fun _ => steady_pure

namespace DebugInfo

theorem steady_skipOperands (operation : UInt8) : Steady fun _ => skipOperands operation := by
  unfold skipOperands
  split
  case h_1 | h_2 | h_3 | h_7 => exact steady_unsignedLeb.discard
  case h_4 => exact steady_signedLeb.discard
  case h_5 | h_6 => exact steady_unsignedLeb.discard.times
  case h_8 => exact steady_pure

theorem steady_skipOperations (count : Nat) : Steady fun _ => skipOperations count := by
  induction count with
  | zero => exact steady_fail Error.plain_outOfBounds
  | succ count ih =>
    exact steady_byte.bind fun operation =>
      .ite steady_pure ((steady_skipOperands operation).bind fun _ => ih)

theorem steady_skip : Steady fun _ => skip :=
  steady_unsignedLeb.bind fun _ => steady_unsignedLeb.bind fun _ =>
    steady_unsignedLeb.discard.times.bind fun _ => steady_remaining.bind fun _ =>
      steady_skipOperations _

theorem steady_decode : Steady fun _ => DebugInfo.decode := by
  refine ⟨fun _ h => h, fun g => ?_, fun {g data p e} h => ?_⟩
  · intro data p x q h
    unfold Reads runAt decode at h
    obtain ⟨⟨u, stop⟩, hskip, hstop⟩ := Except.bind_eq_ok_iff.mp h
    cases hstop
    exact steady_skip.forward g _ _ _ _ hskip
  · unfold runAt decode at h
    cases hskip : skip data p with
    | ok out =>
      rw [hskip] at h
      cases h
    | error e' =>
      rw [hskip] at h
      cases h
      exact steady_skip.error hskip

end DebugInfo

/-! ## Values -/

namespace Value

theorem steady_decodeIndex {s : Section} : Steady fun g => decodeIndex g s :=
  steady_unsignedLeb.bind fun _ => steady_resolve

theorem steady_decodeRef {s : Section} {width : Nat} : Steady fun g => decodeRef g s width :=
  steady_number.bind fun _ => steady_resolve

variable {value : Graph → Decoder Value}

theorem steady_decodeArrayWith (h : Steady value) : Steady fun g => decodeArrayWith (value g) :=
  steady_unsignedLeb.bind fun _ => h.gather.bind fun _ => steady_pure

theorem steady_decodeAnnotationWith (h : Steady value) :
    Steady fun g => decodeAnnotationWith g (value g) :=
  steady_decodeIndex.bind fun _ => steady_unsignedLeb.bind fun _ =>
    (Steady.gather (steady_decodeIndex.bind fun _ => h.bind fun _ => steady_pure)).bind
      fun _ => steady_pure

theorem steady_decodePayload (h : Steady value) (argument : UInt8) (tag : ValueTag) :
    Steady fun g => decodePayload g (value g) argument tag := by
  cases tag with
  | null | boolean => exact steady_pure
  | byte | short | int | long => exact steady_signedNumber.bind fun _ => steady_pure
  | char | float | double => exact steady_number.bind fun _ => steady_pure
  | array => exact (steady_decodeArrayWith h).bind fun _ => steady_pure
  | annotated => exact (steady_decodeAnnotationWith h).bind fun _ => steady_pure
  | methodType | methodHandle | string | type | field | method | enum =>
    exact steady_decodeRef.bind fun _ => steady_pure

theorem steady_decodeWithin (depth : Nat) : Steady fun g => decodeWithin g depth := by
  induction depth with
  | zero => exact steady_fail Error.plain_outOfBounds
  | succ depth ih =>
    refine steady_position.bind fun start => steady_byte.bind fun first => ?_
    dsimp only
    cases ValueTag.ofCode? (first &&& 0x1F) with
    | none => exact steady_fail (Error.plain_malformed _)
    | some tag =>
      exact .ite ((steady_fail (Error.plain_malformed _)).bind fun _ =>
        steady_decodePayload ih _ tag) (steady_pure.bind fun _ => steady_decodePayload ih _ tag)

theorem steady_decodeArray : Steady decodeArray :=
  steady_remaining.bind fun _ => steady_decodeArrayWith (steady_decodeWithin _)

end Value

theorem Annotation.steady_decode : Steady Annotation.decode :=
  steady_remaining.bind fun _ => Value.steady_decodeAnnotationWith (Value.steady_decodeWithin _)

/-! ## Bodies and members -/

theorem CodeHeader.steady_decode : Steady fun _ => CodeHeader.decode :=
  steady_halfWord.bind fun _ => steady_halfWord.bind fun _ => steady_halfWord.bind fun _ =>
    steady_halfWord.bind fun _ => steady_word.bind fun _ => steady_word.bind fun _ => steady_pure

namespace CatchHandler

theorem steady_decodeClause : Steady decodeClause :=
  steady_unsignedLeb.bind fun _ => steady_unsignedLeb.bind fun _ =>
    steady_resolve.bind fun _ => steady_pure

theorem steady_decode (listOffset : UInt16) : Steady fun g => decode g listOffset :=
  steady_signedLeb.bind fun _ => steady_decodeClause.gather.bind fun _ =>
    .ite (steady_unsignedLeb.bind fun _ => steady_pure) steady_pure

theorem steady_skip : Steady fun _ => skip :=
  steady_signedLeb.bind fun _ => steady_unsignedLeb.discard.times.bind fun _ =>
    .ite steady_unsignedLeb.discard steady_pure

end CatchHandler

namespace Catches

theorem steady_addTry (listStart : Nat) (c : Catches) (t : StoredTry) :
    Steady fun g => addTry g listStart c t := by
  unfold addTry
  cases CatchHandler.positionOf? c.handlers t.handlerOffset with
  | some i => exact steady_pure
  | none => exact (CatchHandler.steady_decode _).elsewhere.bind fun _ => steady_pure

theorem plain_of_toHalfWord {n : Nat} {e : Error} (h : toHalfWord n = .error e) : e.Plain := by
  unfold toHalfWord at h
  split at h <;> cases h
  exact Error.plain_malformed _

theorem steady_addListed (listStart count : Nat) (c : Catches) :
    Steady fun g => addListed g listStart count c := by
  induction count generalizing c with
  | zero => exact steady_pure
  | succ count ih =>
    exact steady_position.bind fun _ =>
      (steady_ofExcept fun _ => plain_of_toHalfWord).bind fun _ =>
        .ite (CatchHandler.steady_skip.bind fun _ => ih _)
          ((CatchHandler.steady_decode _).bind fun _ => ih _)

theorem steady_decode (tryCount : Nat) : Steady fun g => decode g tryCount := by
  have htry : Steady fun _ => StoredTry.decode :=
    steady_word.bind fun _ => steady_halfWord.bind fun _ => steady_halfWord.bind fun _ => steady_pure
  exact htry.gather.bind fun _ => steady_position.bind fun _ =>
    (Steady.foldlM (steady_addTry _) _).bind fun _ => steady_unsignedLeb.bind fun _ =>
      steady_addListed _ _ _

end Catches

theorem CodeItem.steady_decodeAfter (h : CodeHeader) (debugInfo : Option (Ref .debugInfo)) :
    Steady fun g => decodeAfter g h debugInfo :=
  steady_halfWord.gather.bind fun _ =>
    .ite (steady_pure.bind fun _ => steady_pure)
      (.ite (steady_advance.bind fun _ => (Catches.steady_decode _).bind fun _ => steady_pure)
        ((Catches.steady_decode _).bind fun _ => steady_pure))

theorem plain_of_nextIndex {previous delta : UInt32} {e : Error}
    (h : nextIndex previous delta = .error e) : e.Plain := by
  unfold nextIndex at h
  split at h <;> cases h
  exact Error.plain_malformed _

theorem FieldItem.steady_decodeFrom (previous : UInt32) (fields : Array FieldItem) (count : Nat) :
    Steady fun g => decodeFrom g previous fields count := by
  induction count generalizing previous fields with
  | zero => exact steady_pure
  | succ count ih =>
    exact steady_unsignedLeb.bind fun _ =>
      (steady_ofExcept fun _ => plain_of_nextIndex).bind fun _ =>
        steady_unsignedLeb.bind fun _ => steady_resolve.bind fun _ => ih _ _

theorem FieldItem.steady_decodeList (count : UInt32) : Steady fun g => decodeList g count :=
  steady_decodeFrom 0 #[] count.toNat

/-! ## Rows and hidden-API flags -/

theorem StringIdRow.steady_decode : Steady fun _ => (Row.decode : Decoder StringIdRow) :=
  steady_word.bind fun _ => steady_pure

theorem TypeIdRow.steady_decode : Steady fun _ => (Row.decode : Decoder TypeIdRow) :=
  steady_word.bind fun _ => steady_pure

theorem ProtoIdRow.steady_decode : Steady fun _ => (Row.decode : Decoder ProtoIdRow) :=
  steady_word.bind fun _ => steady_word.bind fun _ => steady_word.bind fun _ => steady_pure

theorem FieldIdRow.steady_decode : Steady fun _ => (Row.decode : Decoder FieldIdRow) :=
  steady_halfWord.bind fun _ => steady_halfWord.bind fun _ => steady_word.bind fun _ => steady_pure

theorem MethodIdRow.steady_decode : Steady fun _ => (Row.decode : Decoder MethodIdRow) :=
  steady_halfWord.bind fun _ => steady_halfWord.bind fun _ => steady_word.bind fun _ => steady_pure

theorem ClassDefRow.steady_decode : Steady fun _ => (Row.decode : Decoder ClassDefRow) :=
  steady_word.bind fun _ => steady_word.bind fun _ => steady_word.bind fun _ =>
    steady_word.bind fun _ => steady_word.bind fun _ => steady_word.bind fun _ =>
      steady_word.bind fun _ => steady_word.bind fun _ => steady_pure

theorem CallSiteIdRow.steady_decode : Steady fun _ => (Row.decode : Decoder CallSiteIdRow) :=
  steady_word.bind fun _ => steady_pure

theorem MethodHandleRow.steady_decode : Steady fun _ => (Row.decode : Decoder MethodHandleRow) :=
  steady_halfWord.bind fun _ => steady_halfWord.bind fun _ => steady_halfWord.bind fun _ =>
    steady_halfWord.bind fun _ => steady_pure

theorem MapEntry.steady_decode : Steady fun _ => (Row.decode : Decoder MapEntry) :=
  steady_halfWord.bind fun _ => steady_halfWord.bind fun _ => steady_word.bind fun _ =>
    steady_word.bind fun _ => steady_pure

namespace HiddenApi

theorem steady_decodeClass (start members classIndex : Nat) :
    Steady fun _ => decodeClass start members classIndex :=
  steady_word.elsewhere.bind fun _ => .ite steady_pure
    (Steady.elsewhere (steady_unsignedLeb.gather.bind fun _ => steady_pure))

theorem steady_decode (members : Array Nat) : Steady fun _ => decode members := by
  refine steady_position.bind fun start => steady_word.bind fun total => .bind ?_ fun _ =>
    steady_pure
  exact Steady.mapM fun _ => steady_decodeClass _ _ _

end HiddenApi

end DexGraph
