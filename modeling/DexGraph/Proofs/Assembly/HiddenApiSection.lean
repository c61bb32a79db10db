import DexGraph.Proofs.Assembly.BodyReading
import DexGraph.Proofs.Codec.HiddenApiShape

/-!
# The hidden-API section there and back

A hidden-API section takes as many bytes as it needs, and no fewer than are recorded for it. The
offsets in its table count from its own start, so it can be put down anywhere. It is read back as it
is when the classes have as many members as there are flags: a class without flags stays without
them, and one with no flags at all keeps an empty list (`HiddenApi.encode_section`).
-/

namespace DexGraph

/-- There is an entry for every class, and the flags of a class are as many as its members. -/
structure HiddenApi.Fits (h : HiddenApi) (members : Array Nat) : Prop where
  size_eq : members.size = h.flags.size
  flags : ∀ (i : Nat) (f : Array UInt32), h.flags[i]? = some (some f) → members[i]? = some f.size

/-- The assembly with the flags of the classes and the place at which they were met. -/
def Assembly.withHiddenapi (a : Assembly) (h : HiddenApi) (place : Place) : Assembly :=
  { a with
    graph := { a.graph with hiddenapi := some h }
    layout := { a.layout with hiddenapi := place } }

namespace Build

/-- The flags that a section shows become those of the graph, and its total size the recorded
one. -/
theorem hiddenapi_of_reads {source : Source} {range : SectionRange} {a : Assembly} {h : HiddenApi}
    {total : UInt32} {q : Nat}
    (hread : (HiddenApi.decode (a.graph.classDefs.items.map a.graph.memberCount)).Reads source.data
      range.offset.toNat (total, h) q) :
    hiddenapi range source a = .ok ((), a.withHiddenapi h
      ⟨if source.options.keepOffsets then some range.offset else none, total⟩) := by
  have hrun : (ofExcept ((HiddenApi.decode (a.graph.classDefs.items.map
      a.graph.memberCount)).runAt source.data range.offset.toNat) : Build _) source a =
      .ok (((total, h), q), a) := by
    rw [hread]
    rfl
  unfold hiddenapi
  rw [run_bind]
  change ((get : Build Assembly) >>= _) source a = _
  rw [run_bind]
  change (ofExcept _ >>= _ : Build Unit) source a = _
  rw [run_bind, hrun]
  rfl

end Build

namespace HiddenApi

/-- A section is read back from its bytes wherever they stand. -/
theorem reads_decode_of_encode {h : HiddenApi} {recorded : UInt32} {item : Stream}
    (hitem : h.encode recorded = .ok item) {members : Array Nat} (hfits : h.Fits members)
    {data : Bytes} {start : Nat} (hat : data.HoldsAt start item.toBytes.toList) :
    (decode members).Reads data start (max h.byteSize.toUInt32 recorded, h) (start + 4) := by
  have hsize := (encode_eq_ok_iff.mp hitem).1
  have hle := byteSize_le hsize recorded
  have hlength := length_of_encode hitem
  have hpos := length_pos_of_encode hitem
  have hend := hat.add_size_le (by rwa [Stream.size_toBytes])
  rw [Stream.size_toBytes] at hend
  rw [toList_toBytes_of_encode hitem] at hat
  exact reads_decode_of_body (Bytes.holdsAt_append.mp hat).1 (by omega) hsize hfits.size_eq
    hfits.flags

/-- A section whose bytes can be counted in a word is stored at any fresh position of an output: the
total size is what is needed or what is recorded, whichever is more, zeros fill it, and the cursor
stands behind it. Wherever these bytes stand, they give the flags of all classes back. -/
theorem encode_section {h : HiddenApi} (hsize : h.byteSize < 2 ^ 32) (recorded : UInt32)
    {s : Stream} (hfresh : s.Fresh) :
    ∃ (item : Stream) (total : UInt32), h.encode recorded = .ok item ∧
      total.toNat = max h.byteSize recorded.toNat ∧
      item.toBytes.size = total.toNat ∧
      item.toBytes.HoldsAt 0 (Bytes.ofWord total).toList ∧
      (∀ i, h.byteSize ≤ i → i < total.toNat → item.toBytes[i]? = some 0) ∧
      (s ++ item).position = s.position + total.toNat ∧
      (s ++ item).length = max s.length (s.position + total.toNat) ∧
      (s ++ item).toBytes.HoldsAt s.position item.toBytes.toList ∧
      (∀ i < s.position, (s ++ item).byteAt? i = s.byteAt? i) ∧
      (∀ (data : Bytes) (start : Nat) (members : Array Nat),
        data.HoldsAt start item.toBytes.toList → h.Fits members →
        (decode members).Reads data start (total, h) (start + 4)) ∧
      ∀ (source : Source) (range : SectionRange) (a : Assembly),
        source.data.HoldsAt range.offset.toNat item.toBytes.toList →
        h.Fits (a.graph.classDefs.items.map a.graph.memberCount) →
        Build.hiddenapi range source a = .ok ((), a.withHiddenapi h
          ⟨if source.options.keepOffsets then some range.offset else none, total⟩) := by
  obtain ⟨item, hitem⟩ : ∃ item, h.encode recorded = .ok item :=
    ⟨_, encode_eq_ok_iff.mpr ⟨hsize, rfl⟩⟩
  have hlength := length_of_encode hitem
  have hbytes := toList_toBytes_of_encode hitem
  have hbody := h.length_body (max h.byteSize.toUInt32 recorded)
  have hposition := (tight_of_encode hitem).position_eq.trans hlength
  refine ⟨item, max h.byteSize.toUInt32 recorded, hitem, toNat_max_byteSize hsize recorded,
    by rw [Stream.size_toBytes, hlength], ?_, fun i hi hlt => ?_,
    by rw [Stream.position_append, hposition], by rw [Stream.length_append, hlength],
    hfresh.holdsAt_append item, fun i => s.byteAt?_append_of_lt item,
    fun data start members hat hfits => reads_decode_of_encode hitem hfits hat,
    fun source range a hat hfits =>
      Build.hiddenapi_of_reads (reads_decode_of_encode hitem hfits hat)⟩
  · have hwhole := Bytes.holdsAt_whole item.toBytes
    rw [hbytes, body, List.append_assoc, List.append_assoc] at hwhole
    exact (Bytes.holdsAt_append.mp hwhole).1
  · rw [← Array.getElem?_toList, hbytes, List.getElem?_append_right (by omega),
      List.getElem?_replicate, if_pos (by omega)]

/-- Four classes: the first and the third have two fields, the second has no class data, and the
last has one field. -/
def fourClasses : Graph :=
  let field : FieldItem := ⟨⟨1⟩, ⟨0⟩, none⟩
  let classDef (c : Option (Ref .classData)) : ClassDef :=
    ⟨⟨0⟩, ⟨1⟩, none, none, none, none, c, none⟩
  { Graph.empty with
    classDatas := .ofItems [⟨none, #[field, field], #[], #[], #[]⟩, ⟨none, #[], #[field], #[], #[]⟩]
    classDefs := .ofItems
      [classDef (some ⟨0⟩), classDef none, classDef (some ⟨0⟩), classDef (some ⟨1⟩)] }

/-- The first of the four classes has no flags, and the second an empty list of them. -/
def fourFlags : HiddenApi :=
  ⟨#[none, some #[], some #[0, 0x80], some #[1]]⟩

/-- The flags of the four classes need 24 bytes, and with a recorded size of 30 they take 30. -/
theorem encode_section_fourClasses : fourFlags.byteSize = 24 ∧
    ∃ item a', fourFlags.encode 30 = .ok item ∧ item.toBytes.size = 30 ∧
      item.toBytes[24]? = some 0 ∧ (Stream.ofBytes #[7, 7, 7] ++ item).position = 33 ∧
      Build.hiddenapi ⟨1, 3⟩ ⟨(Stream.ofBytes #[7, 7, 7] ++ item).toBytes, Build.plainHeader, ⟨#[]⟩,
        .preserving⟩ { Assembly.start Build.plainHeader with graph := fourClasses } = .ok ((), a') ∧
      a'.graph.hiddenapi = some fourFlags ∧ a'.layout.hiddenapi = ⟨some 3, 30⟩ := by
  have hsize : fourFlags.byteSize = 24 := by decide +kernel
  have hfits : fourFlags.Fits (fourClasses.classDefs.items.map fourClasses.memberCount) := by
    refine ⟨by decide +kernel, fun i f hf => ?_⟩
    have hmembers : fourClasses.classDefs.items.map fourClasses.memberCount = #[2, 0, 2, 1] := by
      decide +kernel
    rw [hmembers]
    rcases i with _ | _ | _ | _ | i <;> simp [fourFlags] at hf ⊢ <;> subst hf <;> rfl
  obtain ⟨item, total, hitem, htotal, hbytes, -, hzero, hposition, -, hat, -, -, hbuild⟩ :=
    encode_section (h := fourFlags) (by rw [hsize]; decide) 30
      (Stream.tight_ofBytes #[7, 7, 7]).fresh
  rw [hsize] at htotal hzero
  obtain rfl : total = 30 := UInt32.toNat_inj.mp htotal
  exact ⟨hsize, item, _, hitem, hbytes, hzero 24 (by decide) (by decide), hposition,
    hbuild ⟨_, Build.plainHeader, ⟨#[]⟩, .preserving⟩ ⟨1, 3⟩
      { Assembly.start Build.plainHeader with graph := fourClasses } hat hfits, rfl, rfl⟩

end HiddenApi

end DexGraph
