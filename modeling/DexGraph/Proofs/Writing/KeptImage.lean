import DexGraph.Proofs.Writing.Relayout
import DexGraph.Proofs.Writing.Selection

/-!
# Images that hold a graph under a layout

`KeptImage g l image blocks` says that an image is what the graph `g` makes under the layout `l`:
its header is that of the graph, each part that is written has a block in which the image holds it,
and everything else is zero. The blocks may lie in any order and with any distances, and nothing is
said against blocks that overlap. An image that has been laid out anew is one of these
(`FreshImage.kept`).
-/

namespace DexGraph

/-- The parts of an image of a graph that is written under a layout. -/
def Part.Written (g : Graph) (l : Layout) : Part → Prop
  | .header | .mapList => True
  | .table s => s.rowSize? ≠ none ∧ g.count s ≠ 0
  | .item s r => s.rowSize? = none ∧ g.Written l s r
  | .hiddenapi => g.hiddenapi.isSome
  | .linkData => g.linkData.size ≠ 0

/-- An image that holds a graph under a layout, part by part in the given blocks. -/
structure KeptImage (g : Graph) (l : Layout) (image : Bytes) (blocks : Set Block) : Prop where
  size_eq : image.size = l.fileSize.toNat
  parts_iff : ∀ p : Part, p.Written g l ↔ ∃ b ∈ blocks, b.part = p
  eq_of_part_eq : ∀ a ∈ blocks, ∀ b ∈ blocks, a.part = b.part → a = b
  named : ∀ s, s.rowSize? = none → ∀ r, g.Written l s r → ∃ o, l.sectionOffset s = some o
  within : ∀ b ∈ blocks, b.start ≤ b.stop ∧ b.stop ≤ image.size
  recorded : ∀ b ∈ blocks, b.Recorded g l
  holds : ∀ b ∈ blocks, b.part ≠ .header → ∃ content, b.part.Holds g l content ∧
    content.length = b.stop - b.start ∧ image.HoldsAt b.start content.toBytes.toList
  header : ∃ header, Writer.headerOf g l = .ok header ∧ image.HoldsAt 0 header.encode.toList
  zero : ∀ i < image.size, (∀ b ∈ blocks, ¬ (b.start ≤ i ∧ i < b.stop)) → image[i]? = some 0

variable {g : Graph} {l : Layout} {image : Bytes} {s : Section} {r : Ref s} {o : UInt32}

namespace KeptImage

variable {blocks : Set Block} (h : KeptImage g l image blocks)
include h

theorem size_lt : image.size < 2 ^ 32 :=
  h.size_eq ▸ l.fileSize.toNat_lt

/-- The block of the header. -/
theorem header_mem : ⟨.header, 0, FileHeader.byteSize⟩ ∈ blocks := by
  obtain ⟨⟨part, start, stop⟩, hmem, rfl⟩ := (h.parts_iff .header).mp trivial
  obtain ⟨rfl, rfl⟩ := h.recorded _ hmem
  exact hmem

/-- A data item that is written has an offset, and its block starts there. -/
theorem exists_item_mem (hs : s.rowSize? = none) (hr : g.Written l s r) :
    ∃ o, (l.place r).offset = some o ∧
      ⟨.item s r, o.toNat, o.toNat + (l.place r).size.toNat⟩ ∈ blocks := by
  obtain ⟨⟨part, start, stop⟩, hmem, rfl⟩ := (h.parts_iff (.item s r)).mp ⟨hs, hr⟩
  have hsize := h.size_lt
  have hwithin := h.within _ hmem
  obtain ⟨-, hplace, -⟩ := h.recorded _ hmem
  simp only at hplace hwithin
  rw [hplace]
  refine ⟨_, rfl, ?_⟩
  rw [toNat_toUInt32 (by omega), toNat_toUInt32 (by omega), Nat.add_sub_cancel' hwithin.1]
  exact hmem

/-- What the image holds for a data item that is written. -/
theorem exists_encode (hs : s.rowSize? = none) (hr : g.Written l s r) {x : s.Content}
    (hx : g.get? r = some x) :
    ∃ o item, (l.place r).offset = some o ∧
      ⟨.item s r, o.toNat, o.toNat + (l.place r).size.toNat⟩ ∈ blocks ∧
      s.encode l x = .ok item ∧ item.Tight ∧ item.length = (l.place r).size.toNat ∧
      image.HoldsAt o.toNat item.toBytes.toList := by
  obtain ⟨o, ho, hmem⟩ := h.exists_item_mem hs hr
  obtain ⟨item, ⟨x', hx', hitem⟩, hlength, hat⟩ := h.holds _ hmem (by simp)
  obtain rfl := Option.some.inj (hx.symm.trans hx')
  exact ⟨o, item, ho, hmem, hitem, Section.tight_of_encode hitem, by simpa using hlength, hat⟩

/-- The block of a part that is stored as plain bytes. -/
theorem exists_block {p : Part} (hp : p.Written g l) (hne : p ≠ .header) :
    ∃ b ∈ blocks, b.part = p ∧ b.Recorded g l ∧ b.start.toUInt32.toNat = b.start ∧
      ∃ content, p.Holds g l content ∧ content.length = b.stop - b.start ∧
        image.HoldsAt b.start content.toBytes.toList := by
  obtain ⟨b, hb, rfl⟩ := (h.parts_iff p).mp hp
  have hwithin := h.within b hb
  have hsize := h.size_lt
  exact ⟨b, hb, rfl, h.recorded b hb, toNat_toUInt32 (by omega), h.holds b hb hne⟩

end KeptImage

namespace FreshImage

variable {blocks : List Block} (h : FreshImage g l image blocks)
include h

theorem written_iff : g.Written l s r ↔ g.Emitted s r :=
  Graph.written_iff_emitted (fun r => (h.assigned_iff _ rfl r).mp)
    fun r => (h.assigned_iff _ rfl r).mp

/-- An image that has been laid out anew holds its graph under the layout that it has got. -/
theorem kept : KeptImage g l image {b | b ∈ blocks} where
  size_eq := h.size_eq
  parts_iff p := by
    refine Iff.trans ?_ (h.parts_iff p)
    cases p with
    | item s r => exact and_congr_right fun _ => h.written_iff
    | _ => exact Iff.rfl
  eq_of_part_eq _ ha _ hb := h.eq_of_part_eq ha hb
  named s hs r hr :=
    (h.named_iff s).mpr (.inr ⟨Section.mem_dataSections.mpr hs, r, h.written_iff.mp hr⟩)
  within := h.within
  recorded := h.recorded
  holds := h.holds
  header := h.header
  zero := h.zero

end FreshImage

end DexGraph
