import DexGraph.Image
import DexGraph.Proofs.Writing.Geometry

/-!
# Loading images

An image that is loaded starts with its header, and as many bytes as the header states belong to it
(`Image.opened_of_load`). An image that holds a graph with a magic and an endian tag that are accepted
is loaded with the header of the graph, and its map list is that of the graph.
-/

namespace DexGraph

namespace FileHeader

/-- The magic is that of a plain image of a version that can be read. -/
structure Supported (magic : Magic) : Prop where
  kind : magic.toList.take 4 = [0x64, 0x65, 0x78, 0x0A]
  version : ∃ version, { zero with magic := magic }.version? = some version ∧ 35 ≤ version ∧
    version ≤ 40

variable {header : FileHeader} {size : Nat}

theorem validate_eq_ok (hmagic : Supported header.magic)
    (htag : header.endianTag = littleEndianTag) (hheader : header.headerSize.toNat = byteSize)
    (hfile : byteSize ≤ header.fileSize.toNat) (hsize : header.fileSize.toNat ≤ size) :
    header.validate size = .ok () := by
  obtain ⟨hkind, version, hversion, hlow, hhigh⟩ := hmagic
  have hversion : header.version? = some version := hversion
  have hrange : ¬ (version < 35 ∨ 40 < version) := by omega
  have hle : ¬ (header.fileSize.toNat < byteSize ∨ size < header.fileSize.toNat) := by omega
  simp [validate, hkind, hversion, htag, hheader, hrange, hle, littleEndianTag, bigEndianTag]
  rfl

private theorem throw_then_eq_ok_iff {ε : Type} {c : Prop} [Decidable c] {e : ε}
    {rest : Except ε Unit} : (do
      if c then throw e
      rest) = .ok () ↔ ¬ c ∧ rest = .ok () := by
  by_cases hc : c
  · rw [if_pos hc]
    exact ⟨nofun, fun h => absurd hc h.1⟩
  · rw [if_neg hc]
    exact ⟨fun h => ⟨hc, h⟩, fun h => h.2⟩

theorem of_validate (h : header.validate size = .ok ()) :
    header.headerSize.toNat = byteSize ∧ byteSize ≤ header.fileSize.toNat ∧
      header.fileSize.toNat ≤ size := by
  unfold validate at h
  simp only [throw_then_eq_ok_iff] at h
  obtain ⟨-, -, h⟩ := h
  cases hversion : header.version? with
  | none =>
    rw [hversion] at h
    cases h
  | some version =>
    simp only [hversion, throw_then_eq_ok_iff] at h
    obtain ⟨-, -, -, hheader, h⟩ := h
    split at h
    · cases h
    · rename_i hfile
      simp only [Bool.or_eq_true, decide_eq_true_eq] at hfile
      omega

end FileHeader

/-- The image of a header that is accepted starts with this header, and it is as large as the header
says. -/
structure Image.Opened (data : Bytes) (header : FileHeader) : Prop where
  size_eq : data.size = header.fileSize.toNat
  headerSize : header.headerSize.toNat = FileHeader.byteSize
  holds : data.HoldsAt 0 header.encode.toList

theorem Image.opened_of_load {bytes : Bytes} {image : Image} (h : load bytes = .ok image) :
    Opened image.data image.header ∧ image.data = bytes.extract 0 image.fileSize := by
  unfold load at h
  split at h
  · cases h
  · obtain ⟨header, hheader, h⟩ := Except.bind_eq_ok_iff.mp h
    obtain ⟨_, hvalid, h⟩ := Except.bind_eq_ok_iff.mp h
    cases h
    obtain ⟨hsize, hle, hfile⟩ := FileHeader.of_validate hvalid
    have hdata : (⟨bytes, header⟩ : Image).data = bytes.extract 0 header.fileSize.toNat := rfl
    refine ⟨⟨?_, hsize, ?_⟩, rfl⟩
    · rw [hdata, Array.size_extract, Nat.sub_zero, Nat.min_eq_left hfile]
    · refine (FileHeader.read_eq_ok_iff.mp hheader).congr fun i _ hi => ?_
      rw [Array.length_toList, FileHeader.size_encode] at hi
      rw [hdata, Array.getElem?_extract, Nat.zero_add, if_pos (by omega)]

theorem Image.data_eq_bytes {image : Image} (h : image.bytes.size ≤ image.fileSize) :
    image.data = image.bytes := by
  unfold data
  rw [Array.extract_eq_self_of_le h]

/-- What the header of a graph says is accepted. -/
structure Graph.Acceptable (g : Graph) : Prop where
  magic : FileHeader.Supported g.magic
  endianTag : g.endianTag = FileHeader.littleEndianTag

/-- What a header says that does not depend on a table. -/
theorem Writer.fields_of_headerOf {g : Graph} {l : Layout} {header : FileHeader}
    (h : headerOf g l = .ok header) : header.magic = g.magic ∧ header.fileSize = l.fileSize ∧
      header.headerSize = FileHeader.byteSize.toUInt32 ∧ header.endianTag = g.endianTag ∧
      header.mapOffset = l.mapOffset := by
  simp only [headerOf, Except.bind_eq_ok_iff, Except.pure_eq_ok_iff] at h
  obtain ⟨_, -, _, -, _, -, _, -, _, -, _, -, _, -, rfl⟩ := h
  exact ⟨rfl, rfl, rfl, rfl, rfl⟩

namespace FreshImage

variable {g : Graph} {l : Layout} {image : Bytes} {blocks : List Block}

/-- A fresh image is loaded whole. -/
theorem exists_load (h : FreshImage g l image blocks) (hg : g.Acceptable) :
    ∃ header, Writer.headerOf g l = .ok header ∧ Image.load image = .ok ⟨image, header⟩ ∧
      (⟨image, header⟩ : Image).data = image := by
  obtain ⟨header, hheader, hat⟩ := h.header
  obtain ⟨hmagic, hfile, hsize, htag, -⟩ := Writer.fields_of_headerOf hheader
  have hread : FileHeader.read image = .ok header := FileHeader.read_eq_ok_iff.mpr hat
  have hle : FileHeader.byteSize ≤ image.size := (h.within _ h.header_mem).2
  rw [h.size_eq, ← hfile] at hle
  have hvalid : header.validate image.size = .ok () :=
    FileHeader.validate_eq_ok (hmagic ▸ hg.magic) (htag.trans hg.endianTag) (by rw [hsize]; rfl) hle
      (by rw [h.size_eq, hfile])
  have hne : image.isEmpty = false := by
    rw [Array.isEmpty_eq_false_iff]
    rintro rfl
    simp [hfile, ← h.size_eq, FileHeader.byteSize] at hle
  refine ⟨header, hheader, ?_, Image.data_eq_bytes ?_⟩
  · unfold Image.load
    rw [hne, hread]
    exact Except.bind_eq_ok_iff.mpr ⟨header, rfl, Except.bind_eq_ok_iff.mpr ⟨(), hvalid, rfl⟩⟩
  · exact (h.size_eq.trans (congrArg UInt32.toNat hfile.symm)).le

end FreshImage

end DexGraph
