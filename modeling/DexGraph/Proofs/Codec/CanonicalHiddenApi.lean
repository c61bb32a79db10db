import DexGraph.Proofs.Bytes.ShortestForm
import DexGraph.Proofs.Codec.HiddenApiShape

/-!
# Hidden-API sections in canonical form

`HiddenApi.canonical` reads a section in which the flags of the classes follow the offset table one
behind the other, in shortest form, and the stated size covers them and nothing but zeros. A section
that is read where this accepts the bytes is written as these bytes, if its size is recorded
(`HiddenApi.spells_encode_of_canonical`).
-/

namespace DexGraph

namespace Decoder

/-- The next bytes, which have to be zero. -/
def zeros (n : Nat) : Decoder Unit := do
  let part ← bytes n
  require (∀ b ∈ part, b = 0)

variable {α γ : Type} {data : Bytes} {p q : Nat}

theorem spells_zeros {n : Nat} {u : Unit} (h : (zeros n).Reads data p u q) :
    data.Spells p q (.ok (List.replicate n 0)) := by
  obtain ⟨part, _, hpart, hrequire⟩ := reads_bind_iff.mp h
  obtain ⟨hat, hsize, -, rfl⟩ := reads_bytes_iff.mp hpart
  obtain ⟨hzero, rfl⟩ := reads_require_iff.mp hrequire
  have hlist : part.toList = List.replicate n 0 :=
    List.eq_replicate_iff.mpr
      ⟨by simpa using hsize, fun b hb => hzero b (Array.mem_toList_iff.mp hb)⟩
  exact ⟨_, rfl, hlist ▸ hat, by simp⟩

/-- What is read for every element without moving on. -/
theorem forall₂_of_reads_mapM {f : γ → Decoder α} (hf : ∀ x y q, (f x).Reads data p y q → q = p)
    {xs : List γ} {ys : List α} (h : (xs.mapM f).Reads data p ys q) :
    q = p ∧ List.Forall₂ (fun x y => (f x).Reads data p y p) xs ys := by
  induction xs generalizing ys with
  | nil =>
    rw [List.mapM_nil] at h
    obtain ⟨rfl, rfl⟩ := reads_pure_iff.mp h
    exact ⟨rfl, .nil⟩
  | cons x rest ih =>
    rw [List.mapM_cons] at h
    obtain ⟨y, m, hy, hothers⟩ := reads_bind_iff.mp h
    obtain rfl := hf x y m hy
    obtain ⟨_, _, hys, hpure⟩ := reads_bind_iff.mp hothers
    obtain ⟨rfl, rfl⟩ := reads_pure_iff.mp hpure
    obtain ⟨rfl, hall⟩ := ih hys
    exact ⟨rfl, .cons hy hall⟩

end Decoder

namespace HiddenApi

open Decoder

/-- The flags of classes of which the numbers of members and the offsets are given: a class with an
offset has its flags where those before it end. -/
def canonicalFlags (start : Nat) : List (Nat × UInt32) → Decoder Unit
  | [] => return ()
  | (members, offset) :: rest => do
    if offset != 0 then
      let here ← position
      require (start + offset.toNat = here)
      times members (discard shortestLeb)
    canonicalFlags start rest

/-- A section for classes with the given numbers of members. -/
def canonical (members : Array Nat) : Decoder Unit := do
  let start ← position
  let total ← word
  let offsets ← gather members.size word
  canonicalFlags start (members.zip offsets).toList
  let stop ← position
  require (stop ≤ start + total.toNat)
  zeros (start + total.toNat - stop)

variable {data : Bytes} {start p q r : Nat}

/-- What a section shows of a class with an offset. -/
inductive ShowsFlags (data : Bytes) (start : Nat) :
    Nat × UInt32 → Option (Array UInt32) → Prop
  | none (members : Nat) : ShowsFlags data start (members, 0) none
  | some {members : Nat} {offset : UInt32} {flags : Array UInt32} {q : Nat} (hne : offset ≠ 0)
      (h : (gather members unsignedLeb).Reads data (start + offset.toNat) flags q) :
      ShowsFlags data start (members, offset) (some flags)

theorem stop_of_decodeClass {members index : Nat} {flags : Option (Array UInt32)}
    (h : (decodeClass start members index).Reads data p flags q) : q = p := by
  obtain ⟨offset, _, hword, hflags⟩ := reads_bind_iff.mp h
  obtain ⟨-, -, -, rfl⟩ := reads_elsewhere_iff.mp hword
  split at hflags
  · exact (reads_pure_iff.mp hflags).2
  · exact (reads_elsewhere_iff.mp hflags).2.2.2

/-- The flags that are read of the classes are those at the offsets of the table. -/
theorem showsFlags_of_decodeClasses {members : List Nat} (index : Nat) {offsets : List UInt32}
    (hoffsets : ReadsEach word data (start + 4 + 4 * index) offsets q)
    (hlength : offsets.length = members.length) {flags : List (Option (Array UInt32))}
    (h : List.Forall₂ (fun (x : Nat × Nat) f => (decodeClass start x.1 x.2).Reads data p f p)
      (members.zipIdx index) flags) :
    List.Forall₂ (ShowsFlags data start) (members.zip offsets) flags := by
  induction members generalizing index offsets flags with
  | nil =>
    cases h
    exact .nil
  | cons m rest ih =>
    cases offsets with
    | nil => cases hlength
    | cons o offsets =>
      obtain ⟨s, hword, hoffsets⟩ := hoffsets
      obtain ⟨-, rfl⟩ := reads_word_iff.mp hword
      rw [List.zipIdx_cons] at h
      cases h with
      | cons hfirst hrest =>
        rw [List.zip_cons_cons]
        refine .cons ?_ (ih (index + 1) (by rwa [Nat.mul_succ, ← Nat.add_assoc])
          (Nat.succ.inj hlength) hrest)
        obtain ⟨o', _, hslot, hclass⟩ := reads_bind_iff.mp hfirst
        obtain ⟨⟨_, hword'⟩, -, -, rfl⟩ := reads_elsewhere_iff.mp hslot
        obtain ⟨rfl, -⟩ := hword.unique hword'
        split at hclass
        · rename_i hzero
          obtain ⟨rfl, -⟩ := reads_pure_iff.mp hclass
          rw [beq_iff_eq.mp hzero]
          exact .none m
        · rename_i hne
          obtain ⟨⟨_, hflags⟩, -⟩ := reads_elsewhere_iff.mp hclass
          obtain ⟨f, _, hf, hpure⟩ := reads_bind_iff.mp hflags
          obtain ⟨rfl, -⟩ := reads_pure_iff.mp hpure
          exact .some (by simpa using hne) hf

theorem spells_flags {flags : List UInt32} (h : ReadsEach unsignedLeb data p flags q)
    (hwalk : (times flags.length (discard shortestLeb)).Reads data p () r) :
    r = q ∧ data.Spells p q (.ok (flags.flatMap fun flag => (Leb128.encodeUnsigned flag).toList)) := by
  induction flags generalizing p with
  | nil =>
    obtain rfl : q = p := h
    exact ⟨(reads_pure_iff.mp hwalk).2, Bytes.spells_nil⟩
  | cons flag rest ih =>
    obtain ⟨m, hflag, hrest⟩ := h
    obtain ⟨_, _, hfirst, hwalk⟩ := reads_bind_iff.mp hwalk
    obtain ⟨_, hfirst⟩ := reads_discard_iff.mp hfirst
    obtain ⟨-, rfl, hspells⟩ := shortestLeb_eq hflag hfirst
    obtain ⟨rfl, htail⟩ := ih hrest hwalk
    exact ⟨rfl, hspells.append htail⟩

/-- Flags that follow each other from `position` on are written as they are stored, with the offsets
that are stored. -/
theorem spells_of_canonicalFlags {position : Nat} {classes : List (Nat × UInt32)}
    {flags : List (Option (Array UInt32))} (h : List.Forall₂ (ShowsFlags data start) classes flags)
    {u : Unit} (hwalk : (canonicalFlags start classes).Reads data (start + position) u r) :
    data.Spells (start + position) r (.ok (flags.flatMap fun f => flagBytes (f.getD #[]))) ∧
      offsetBytes position flags = classes.flatMap fun c => (Bytes.ofWord c.2).toList := by
  induction h generalizing position with
  | nil =>
    obtain ⟨-, rfl⟩ := reads_pure_iff.mp hwalk
    exact ⟨Bytes.spells_nil, rfl⟩
  | cons hfirst _ ih =>
    rw [offsetBytes_cons, List.flatMap_cons, List.flatMap_cons]
    cases hfirst with
    | none members =>
      rw [canonicalFlags, if_neg (by simp)] at hwalk
      obtain ⟨htail, hoffsets⟩ := @ih position hwalk
      exact ⟨by simpa [flagBytes] using htail, by simp [hoffsets, flagBytes]⟩
    | @some members offset f q hne hf =>
      rw [canonicalFlags, if_pos (by simpa using hne)] at hwalk
      obtain ⟨_, _, hhere, hwalk⟩ := reads_bind_iff.mp hwalk
      obtain ⟨rfl, rfl⟩ := reads_position_iff.mp hhere
      obtain ⟨hplace, hwalk⟩ := reads_require_bind_iff.mp hwalk
      obtain ⟨_, m, htimes, hwalk⟩ := reads_bind_iff.mp hwalk
      obtain rfl : offset.toNat = position := Nat.add_left_cancel hplace
      obtain ⟨hcount, heach⟩ := reads_gather_iff.mp hf
      rw [← hcount, ← Array.length_toList] at htimes
      obtain ⟨rfl, _, ⟨⟩, hat, rfl⟩ := spells_flags heach htimes
      have hlist : (f.toList.flatMap fun flag => (Leb128.encodeUnsigned flag).toList) =
          flagBytes f := rfl
      rw [hlist] at hat hwalk
      rw [Nat.add_assoc] at hwalk
      obtain ⟨htail, hoffsets⟩ := ih hwalk
      rw [← Nat.add_assoc] at htail
      refine ⟨Bytes.Spells.append ⟨_, rfl, hat, rfl⟩ htail, ?_⟩
      simp [hoffsets]

/-- A section is written with zeros behind what it needs, up to the size that is recorded for it. -/
theorem spells_encode {h : HiddenApi} {total : UInt32} (hle : h.byteSize ≤ total.toNat)
    (hat : data.HoldsAt start (h.body total ++ List.replicate (total.toNat - h.byteSize) 0)) :
    data.Spells start (start + total.toNat)
      ((fun item : Stream => item.toBytes.toList) <$> h.encode total) := by
  have hsize : h.byteSize < 2 ^ 32 := Nat.lt_of_le_of_lt hle total.toNat_lt
  have hmax : max h.byteSize.toUInt32 total = total := by
    rw [← UInt32.toNat_inj, toNat_max_byteSize hsize]
    exact Nat.max_eq_right hle
  obtain ⟨item, hitem⟩ : ∃ item, h.encode total = .ok item := ⟨_, encode_eq_ok_iff.mpr ⟨hsize, rfl⟩⟩
  have hlength := length_of_encode hitem
  have hbytes := toList_toBytes_of_encode hitem
  rw [hmax] at hlength hbytes
  rw [hlength] at hbytes
  rw [hitem]
  refine ⟨item.toBytes.toList, rfl, hbytes ▸ hat, ?_⟩
  rw [Array.length_toList, Stream.size_toBytes, hlength]

/-- A section that is read where it is in canonical form is written as it is stored, if its size is
the recorded one. -/
theorem spells_encode_of_canonical {members : Array Nat} {total : UInt32} {h : HiddenApi}
    (hread : (decode members).Reads data start (total, h) q)
    {u : Unit} (hwalk : (canonical members).Reads data start u r) :
    data.Spells start (start + total.toNat)
      ((fun item : Stream => item.toBytes.toList) <$> h.encode total) := by
  obtain ⟨_, start, hposition, hbody⟩ := reads_bind_iff.mp hread
  obtain ⟨rfl, rfl⟩ := reads_position_iff.mp hposition
  obtain ⟨_, m, htotal, hclasses⟩ := reads_bind_iff.mp hbody
  obtain ⟨flags, _, hflags, hpure⟩ := reads_bind_iff.mp hclasses
  obtain ⟨heq, rfl⟩ := reads_pure_iff.mp hpure
  obtain ⟨rfl, rfl⟩ := Prod.mk.inj heq
  obtain ⟨_, start, hposition', hbody'⟩ := reads_bind_iff.mp hwalk
  obtain ⟨rfl, rfl⟩ := reads_position_iff.mp hposition'
  obtain ⟨_, _, htotal', htable⟩ := reads_bind_iff.mp hbody'
  obtain ⟨rfl, rfl⟩ := htotal.unique htotal'
  obtain ⟨htotalAt, rfl⟩ := reads_word_iff.mp htotal
  obtain ⟨offsets, _, hoffsets, hstreams⟩ := reads_bind_iff.mp htable
  obtain ⟨_, stop, hlists, htail⟩ := reads_bind_iff.mp hstreams
  obtain ⟨_, stop, hstop, hrest⟩ := reads_bind_iff.mp htail
  obtain ⟨rfl, rfl⟩ := reads_position_iff.mp hstop
  obtain ⟨hle, hzeros⟩ := reads_require_bind_iff.mp hrest
  obtain ⟨_, ⟨⟩, hzerosAt, -⟩ := spells_zeros hzeros
  -- The offset table, and the flags that are read at its offsets.
  obtain ⟨hcount, hwords⟩ := reads_gather_iff.mp hoffsets
  obtain ⟨_, ⟨⟩, hwordsAt, rfl⟩ := hwords.spells (f := fun o => (Bytes.ofWord o).toList)
    fun _ _ _ ho => by
      obtain ⟨hat, rfl⟩ := reads_word_iff.mp ho
      exact ⟨_, rfl, hat, by simp⟩
  have hwordsLength : (offsets.toList.flatMap fun o => (Bytes.ofWord o).toList).length =
      4 * members.size := by
    simp [List.length_flatMap, hcount, Nat.mul_comm]
  rw [Array.mapM_eq_mapM_toList] at hflags
  obtain ⟨flags, hlist, rfl⟩ := reads_map_iff.mp hflags
  obtain ⟨-, hall⟩ := forall₂_of_reads_mapM (f := fun x : Nat × Nat => decodeClass start x.1 x.2)
    (fun _ _ _ => stop_of_decodeClass) hlist
  rw [Array.toList_zipIdx] at hall
  have hshows := showsFlags_of_decodeClasses 0 hwords (by simpa using hcount) hall
  have hsize : flags.length = members.size := by simpa using hall.length_eq.symm
  rw [Array.toList_zip, hwordsLength, Nat.add_assoc] at hlists
  obtain ⟨⟨_, ⟨⟩, hstreamsAt, rfl⟩, hoffsetBytes⟩ := spells_of_canonicalFlags hshows hlists
  have htable : (members.toList.zip offsets.toList).flatMap (fun c => (Bytes.ofWord c.2).toList) =
      offsets.toList.flatMap fun o => (Bytes.ofWord o).toList := by
    have hsnd : (members.toList.zip offsets.toList).map Prod.snd = offsets.toList :=
      List.map_snd_zip (by simp [hcount])
    conv_rhs => rw [← hsnd, List.flatMap_map]
  -- Together they are what is written.
  let h : HiddenApi := ⟨flags.toArray⟩
  have hbody : h.body total = (Bytes.ofWord total).toList ++
      (offsets.toList.flatMap fun o => (Bytes.ofWord o).toList) ++
      flags.flatMap fun f => flagBytes (f.getD #[]) := by
    simp only [h, body, List.size_toArray, hsize, hoffsetBytes, htable]
  have hneeded : h.byteSize = 4 + 4 * members.size +
      (flags.flatMap fun f => flagBytes (f.getD #[])).length := by
    rw [← h.length_body total, hbody]
    simp only [List.length_append, Array.length_toList, Bytes.size_ofWord, hwordsLength]
  rw [Nat.add_assoc start, ← hneeded] at hle hzerosAt
  refine spells_encode (h := h) (Nat.le_of_add_le_add_left hle) ?_
  rw [Bytes.holdsAt_append, h.length_body, ← Nat.add_sub_add_left start total.toNat h.byteSize]
  refine ⟨?_, hzerosAt⟩
  rw [hbody, List.append_assoc, Bytes.holdsAt_append, Bytes.holdsAt_append, hwordsLength,
    Array.length_toList, Bytes.size_ofWord, Nat.add_assoc start]
  exact ⟨htotalAt, hwordsAt, hstreamsAt⟩

end HiddenApi

end DexGraph
