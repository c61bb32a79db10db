import DexGraph.Proofs.Bytes.HoldsAt
import DexGraph.Proofs.Writing.Establishes

/-!
# The checksum and the signature of a written image

The header is stamped last: first the signature and then the checksum, each over the bytes behind
its own place. Whatever graph is written and however its layout came about, the image that results
has the checksum and the signature that its layout records, as far as they were asked for.
-/

namespace DexGraph

variable {g : Graph} {options : WriteOptions} {l layout : Layout} {image : Bytes}

/-- A store in front of a position does not change what lies behind it. -/
theorem Bytes.extract_overlay {target source : Bytes} {p q : Nat} (h : p + source.size ≤ q) :
    (target.overlay p source).extract q (target.overlay p source).size =
      target.extract q target.size := by
  apply Array.ext_getElem?
  intro i
  rw [Array.getElem?_extract, Array.getElem?_extract, Bytes.size_overlay, Bytes.getElem?_overlay,
    if_neg (c := p ≤ q + i ∧ _) (by omega)]

theorem imageChecksum_overlay {source : Bytes} {p : Nat}
    (h : p + source.size ≤ FileHeader.signatureOffset) :
    imageChecksum (image.overlay p source) = imageChecksum image := by
  rw [imageChecksum, Bytes.extract_overlay h, imageChecksum]

theorem imageSignature_overlay {source : Bytes} {p : Nat}
    (h : p + source.size ≤ FileHeader.signedOffset) :
    imageSignature (image.overlay p source) = imageSignature image := by
  rw [imageSignature, Bytes.extract_overlay h, imageSignature]

namespace Writer

variable {job : Job} {d : Draft}

/-- A step that is not looked into. -/
theorem establishes_true {α : Type} {w : Writer α} :
    Establishes job (fun _ => True) w (fun _ _ => True) d := by
  unfold Establishes
  cases w job d <;> trivial

theorem establishes_stampHeader :
    Establishes job (fun _ => True) (stampHeader image) (fun image' d' =>
      (job.options.updateChecksum = true → imageChecksum image' = d'.layout.checksum) ∧
      (job.options.updateSignature = true → imageSignature image' = d'.layout.signature)) d := by
  unfold stampHeader
  simp only [establishes_bind, establishes_read, establishes_get, establishes_ofExcept,
    establishes_changeLayout, establishes_pure, implies_true, and_true]
  intro header _ image' _
  constructor
  · intro hchecksum
    rw [hchecksum, if_pos rfl, imageChecksum_overlay (by simp [FileHeader.checksumOffset,
      FileHeader.signatureOffset])]
  · intro hsignature
    rw [hsignature, if_pos rfl, imageSignature_overlay (by simp [FileHeader.checksumOffset,
      FileHeader.signedOffset]), imageSignature_overlay (by simp [FileHeader.signatureOffset,
      FileHeader.signedOffset])]

theorem establishes_writeImage :
    Establishes job (fun _ => True) writeImage (fun image' d' =>
      (job.options.updateChecksum = true → imageChecksum image' = d'.layout.checksum) ∧
      (job.options.updateSignature = true → imageSignature image' = d'.layout.signature)) d := by
  unfold writeImage
  refine establishes_true.bind fun computes d _ => ?_
  -- Whether or not the offsets are cleared first, the same steps follow.
  suffices h : ∀ d, Establishes job (fun _ => True) (do
      changeStream fun stream => stream.skip FileHeader.byteSize
      writeTables; openData; writeData; fillTables; writeMapList; writeLinkData
      stampHeader (← closeImage)) (fun image' d' =>
      (job.options.updateChecksum = true → imageChecksum image' = d'.layout.checksum) ∧
      (job.options.updateSignature = true → imageSignature image' = d'.layout.signature)) d by
    cases computes
    · exact h d
    · exact establishes_true.bind fun _ d _ => h d
  intro d
  refine establishes_true.bind fun _ _ _ => establishes_true.bind fun _ _ _ => ?_
  refine establishes_true.bind fun _ _ _ => establishes_true.bind fun _ _ _ => ?_
  refine establishes_true.bind fun _ _ _ => establishes_true.bind fun _ _ _ => ?_
  exact establishes_true.bind fun _ _ _ => establishes_true.bind fun _ _ _ =>
    establishes_stampHeader

end Writer

namespace Graph

/-- A written image has the checksum and the signature that its layout records. -/
theorem write_stamped (h : g.write options layout = (.ok image, l)) :
    (options.updateChecksum = true → imageChecksum image = l.checksum) ∧
      (options.updateSignature = true → imageSignature image = l.signature) := by
  unfold write at h
  cases hrun : Writer.writeImage ⟨g, options, g.liveCode⟩ ⟨∅, layout⟩ with
  | ok image' d =>
    rw [hrun] at h
    cases h
    exact Writer.establishes_writeImage.of_ok hrun
  | error e d =>
    rw [hrun] at h
    cases h

end Graph

end DexGraph
