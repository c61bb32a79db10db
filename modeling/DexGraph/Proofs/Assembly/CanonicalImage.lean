import DexGraph.Dex
import DexGraph.Proofs.Assembly.CanonicalMap
import DexGraph.Proofs.Codec.CanonicalHiddenApi
import DexGraph.Proofs.Writing.Geometry

/-!
# Images in canonical form

An image is canonical if it is stored as it would be written: each entity is in canonical form where
it lies, and so are the hidden-API flags and the map list, an empty table has the offset zero, the
checksum is the right one, and what belongs to no part is zero. Nothing is said of the order of the
parts, of their distances or of whether they overlap. A canonical image that is read with its offsets
is written back byte for byte, whatever bytes follow it (`Dex.write_preserving_of_canonical`).
-/

namespace DexGraph

/-! ## Canonical images -/

/-- The decoder accepts what stands at a position. -/
def Decoder.Accepts (d : Decoder Unit) (data : Bytes) (p : Nat) : Prop :=
  ∃ q, d.Reads data p () q

/-- A part of a graph takes up a byte of the image. -/
def Part.Covers (g : Graph) (l : Layout) (entryCount i : Nat) : Prop :=
  ∃ p a b, Part.Spans g l entryCount p a b ∧ a ≤ i ∧ i < b

/-- The image from which a graph and its layout are read is stored as it would be written. -/
structure Source.Canonical (source : Source) (g : Graph) (l : Layout) : Prop where
  /-- An empty table that the header names has the offset zero. -/
  emptyTable : ∀ s range, source.header.table? s = some range → range.size = 0 → range.offset = 0
  /-- Every entity is in canonical form where it lies. -/
  entity : ∀ (s : Section) (r : Ref s), g.Has s r → ∀ o, (l.place r).offset = some o →
    s.canonical.Accepts source.data o.toNat
  /-- The flag lists lie one behind the other, behind their table, and zeros fill the section. -/
  hiddenapi : g.hiddenapi.isSome → ∀ o, l.hiddenapi.offset = some o →
    (HiddenApi.canonical (g.classDefs.items.map g.memberCount)).Accepts source.data o.toNat
  /-- The map list says what it has to, and no more. -/
  map : source.map.Suits g
  /-- The reserved fields of the map list are zero. -/
  mapList : MapList.canonical.Accepts source.data source.header.mapOffset.toNat
  /-- What belongs to no part is zero. -/
  padding : ∀ i < source.data.size, ¬ Part.Covers g l source.map.entries.size i →
    source.data[i]? = some 0

/-- The image from which the file is read is canonical. -/
structure Image.Canonical (image : Image) (d : Dex) : Prop where
  /-- The stored checksum is that of the image. -/
  checksum : imageChecksum image.data = image.header.checksum
  /-- All parts are stored as they would be written. -/
  parts : ∃ map, MapList.read image.data image.header.mapOffset = .ok map ∧
    Source.Canonical ⟨image.data, image.header, map, .preserving⟩ d.graph d.layout

/-! ## Checking -/

section Checking

variable {g : Graph} {l : Layout} {n i : Nat} {s : Section}

theorem Decoder.accepts_iff {d : Decoder Unit} {data : Bytes} {p : Nat} :
    d.Accepts data p ↔ (d.runAt data p).isOk := by
  unfold Accepts Reads
  cases d.runAt data p with
  | ok out => exact ⟨fun _ => rfl, fun _ => ⟨out.2, rfl⟩⟩
  | error e => exact ⟨nofun, nofun⟩

instance {d : Decoder Unit} {data : Bytes} {p : Nat} : Decidable (d.Accepts data p) :=
  decidable_of_iff _ Decoder.accepts_iff.symm

theorem Section.forall_iff {P : Section → Prop} :
    (∀ s, P s) ↔ ∀ s ∈ Section.tables ++ Section.dataSections, P s :=
  ⟨fun h s _ => h s, fun h s => h s (by cases s <;> decide)⟩

instance {P : Section → Prop} [DecidablePred P] : Decidable (∀ s, P s) :=
  decidable_of_iff _ Section.forall_iff.symm

theorem Graph.has_ofPos (hi : i < g.count s) : g.Has s (.ofPos i) := by
  unfold Has
  exact Nat.lt_of_le_of_lt (Nat.mod_le i (2 ^ 32)) hi

theorem Graph.forall_has_iff {P : Ref s → Prop} :
    (∀ r, g.Has s r → P r) ↔ ∀ i < g.count s, P (.ofPos i) :=
  ⟨fun h _ hi => h _ (has_ofPos hi), fun h r hr => Ref.ofPos_pos r ▸ h r.pos hr⟩

instance {P : Ref s → Prop} [DecidablePred P] : Decidable (∀ r, g.Has s r → P r) :=
  decidable_of_iff _ Graph.forall_has_iff.symm

/-- The parts that may take up a byte. -/
theorem Part.covers_iff : Covers g l n i ↔
    i < FileHeader.byteSize ∨
    (∃ s ∈ Section.tables, g.count s ≠ 0 ∧ ∃ size ∈ s.rowSize?, ∃ o ∈ l.sectionOffset s,
      o.toNat ≤ i ∧ i < o.toNat + g.count s * size) ∨
    (∃ s ∈ Section.dataSections, ∃ j < g.count s, ∃ o ∈ (l.place (.ofPos j : Ref s)).offset,
      o.toNat ≤ i ∧ i < o.toNat + (l.place (.ofPos j : Ref s)).size.toNat) ∨
    (g.hiddenapi.isSome ∧ ∃ o ∈ l.hiddenapi.offset,
      o.toNat ≤ i ∧ i < o.toNat + l.hiddenapi.size.toNat) ∨
    (l.mapOffset.toNat ≤ i ∧ i < l.mapOffset.toNat + MapList.byteSize n) ∨
    g.linkData.size ≠ 0 ∧ l.linkOffset.toNat ≤ i ∧ i < l.linkOffset.toNat + g.linkData.size := by
  constructor
  · rintro ⟨p, a, b, hspans, hle, hlt⟩
    cases p with
    | header =>
      obtain ⟨rfl, rfl⟩ := hspans
      exact .inl hlt
    | table s =>
      obtain ⟨hcount, size, o, hs, ho, rfl, rfl⟩ := hspans
      exact .inr (.inl ⟨s, Section.mem_tables.mpr (by simp [hs]), hcount, size, hs, o, ho, hle, hlt⟩)
    | item s r =>
      obtain ⟨hs, hr, o, ho, rfl, rfl⟩ := hspans
      rw [← r.ofPos_pos] at ho hlt
      exact .inr (.inr (.inl ⟨s, Section.mem_dataSections.mpr hs, r.pos, hr, o, ho, hle, hlt⟩))
    | hiddenapi =>
      obtain ⟨hsome, o, ho, rfl, rfl⟩ := hspans
      exact .inr (.inr (.inr (.inl ⟨hsome, o, ho, hle, hlt⟩)))
    | mapList =>
      obtain ⟨rfl, rfl⟩ := hspans
      exact .inr (.inr (.inr (.inr (.inl ⟨hle, hlt⟩))))
    | linkData =>
      obtain ⟨hne, rfl, rfl⟩ := hspans
      exact .inr (.inr (.inr (.inr (.inr ⟨hne, hle, hlt⟩))))
  · rintro (hlt | ⟨s, -, hcount, size, hs, o, ho, hle, hlt⟩ | ⟨s, hs, j, hj, o, ho, hle, hlt⟩ |
      ⟨hsome, o, ho, hle, hlt⟩ | ⟨hle, hlt⟩ | ⟨hne, hle, hlt⟩)
    · exact ⟨.header, _, _, ⟨rfl, rfl⟩, Nat.zero_le _, hlt⟩
    · exact ⟨.table s, _, _, ⟨hcount, size, o, hs, ho, rfl, rfl⟩, hle, hlt⟩
    · exact ⟨.item s (.ofPos j), _, _,
        ⟨Section.mem_dataSections.mp hs, Graph.has_ofPos hj, o, ho, rfl, rfl⟩, hle, hlt⟩
    · exact ⟨.hiddenapi, _, _, ⟨hsome, o, ho, rfl, rfl⟩, hle, hlt⟩
    · exact ⟨.mapList, _, _, ⟨rfl, rfl⟩, hle, hlt⟩
    · exact ⟨.linkData, _, _, ⟨hne, rfl, rfl⟩, hle, hlt⟩

instance : Decidable (Part.Covers g l n i) :=
  decidable_of_iff _ Part.covers_iff.symm

instance {map : MapList} : Decidable (map.Suits g) :=
  decidable_of_iff (_ ∧ _) ⟨fun h => ⟨h.1, h.2⟩, fun h => ⟨h.kinds, h.sorted⟩⟩

theorem Source.canonical_iff {source : Source} : source.Canonical g l ↔
    (∀ s, (source.header.table? s).all fun range => range.size = 0 → range.offset = 0) ∧
      (∀ s, ∀ r : Ref s, g.Has s r →
        (l.place r).offset.all fun o => s.canonical.Accepts source.data o.toNat) ∧
      (g.hiddenapi.isSome → l.hiddenapi.offset.all fun o =>
        (HiddenApi.canonical (g.classDefs.items.map g.memberCount)).Accepts source.data o.toNat) ∧
      source.map.Suits g ∧ MapList.canonical.Accepts source.data source.header.mapOffset.toNat ∧
      ∀ i < source.data.size, ¬ Part.Covers g l source.map.entries.size i →
        source.data[i]? = some 0 := by
  simp only [Option.all_eq_true, decide_eq_true_eq]
  exact ⟨fun h => ⟨h.emptyTable, h.entity, h.hiddenapi, h.map, h.mapList, h.padding⟩,
    fun ⟨h₁, h₂, h₃, h₄, h₅, h₆⟩ => ⟨h₁, h₂, h₃, h₄, h₅, h₆⟩⟩

instance {source : Source} : Decidable (source.Canonical g l) :=
  decidable_of_iff _ Source.canonical_iff.symm

end Checking

end DexGraph
