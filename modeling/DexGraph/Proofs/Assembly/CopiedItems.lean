import DexGraph.Graph.Names
import DexGraph.Proofs.Assembly.BodyReading
import DexGraph.Proofs.Codec.DebugInfoExtent
import DexGraph.Proofs.Text.ModifiedUtf8

/-!
# Strings and debug info are copied

Strings and debug-info streams are taken over byte for byte, and both say themselves where they
end: a string with a zero, which no text contains, and a stream with its last operation. So an image
gives back what was put into it, wherever it stands and whatever surrounds it
(`Build.itemAt_of_recovers`). `StringData.ofText_recovers` follows a text through its units, its
bytes and an image, and `DebugInfo.streamLength_delimits` a stream from the image from which it is
cut into another one.
-/

namespace DexGraph

namespace Build

/-- An item that is read wherever its bytes stand is read into a graph when it is met for the first
time, and its size is the number of its bytes. -/
theorem itemAt_of_recovers {source : Source} {a : Assembly} {s : Section} {offset : UInt32}
    {part : List UInt8} {x : s.Content} {d : Decoder s.Content}
    (hsource : source.data.size < 2 ^ 32) (h : d.Recovers part x) (hs : s ≠ .codeItem)
    (hne : part ≠ []) (hat : source.data.HoldsAt offset.toNat part)
    (hnew : (a.known.get s).get? (.ofOffset offset) = (none : Option (Ref s)))
    (hroom : a.graph.count s < 2 ^ 32) :
    ∃ r a', itemAt s offset (Reading.decode d) source a = .ok (r, a') ∧
      a'.graph.get? r = some x ∧ (a'.layout.place r).size.toNat = part.length := by
  have hfits := hat.add_length_le hne
  have hread : (Reading.decode d).run offset.toNat source a =
      .ok ((x, offset.toNat + part.length), a) := run_decodeWith (d := fun _ => d) (h _ _ hat)
  obtain ⟨r, a', hitem, hget, hsize, -⟩ :=
    itemOf_of_run (ItemKey.ofItem_of_ne hs source.data offset) hnew hroom (by omega) hread
  exact ⟨r, a', hitem, hget, by omega⟩

end Build

/-! ## Strings -/

namespace StringData

open Text

/-- An item is longer than its text has units. -/
theorem length_unitsOfString_lt (text : String) :
    (unitsOfString text).length < (ofText text).encode.toList.length := by
  have hunits := ModifiedUtf8.length_unitsOfString_le text
  have hzero : (Bytes.ofByte 0).toList.length = 1 := rfl
  have hbytes : (ofText text).bytes.toList = ModifiedUtf8.encode text := rfl
  unfold encode
  rw [Array.toList_append, Array.toList_append, List.length_append, List.length_append, hbytes]
  omega

/-- A text is given back by its units, by its bytes whatever follows them, and by an image in which
its item stands. The length that is stored is the number of units; it is a word, so it is the number
itself for every text that fits into an image. -/
theorem ofText_recovers (text : String) :
    (∀ b ∈ ModifiedUtf8.encode text, b ≠ 0) ∧
    (unitsOfString text).length =
      text.length + text.toList.countP (fun c => 0x10000 ≤ c.toNat) ∧
    (ofText text).utf16Length.toNat = (unitsOfString text).length % 2 ^ 32 ∧
    (∀ rest, ModifiedUtf8.decode (ModifiedUtf8.encode text ++ rest) =
      unitsOfString text ++ ModifiedUtf8.decode rest) ∧
    ModifiedUtf8.toText (ModifiedUtf8.encode text) = text ∧
    (∀ before rest : List UInt8,
      decode.runAt (before ++ (ofText text).encode.toList ++ rest).toArray before.length =
        .ok (ofText text, before.length + (ofText text).encode.size)) ∧
    ∀ (image : Image) (map : MapList) (options : BuildOptions) (a : Assembly) (offset : UInt32),
      image.data.HoldsAt offset.toNat (ofText text).encode.toList →
      (a.known.get .stringData).get? (.ofOffset offset) = (none : Option (Ref .stringData)) →
      a.graph.count .stringData < 2 ^ 32 →
      (ofText text).utf16Length.toNat = (unitsOfString text).length ∧
      ∃ r a', Build.stringData offset ⟨image.data, image.header, map, options⟩ a = .ok (r, a') ∧
        a'.graph.get? r = some (ofText text) ∧
        (a'.layout.place r).size.toNat = (ofText text).encode.size := by
  have hlength : (ofText text).utf16Length.toNat = (unitsOfString text).length % 2 ^ 32 := by
    rw [ofText, Nat.toUInt32_eq, UInt32.toNat_ofNat']
  have hrecovers := decode_recovers (x := ofText text) fun b hb =>
    ModifiedUtf8.encode_ne_zero text b (List.mem_toArray.mp hb)
  refine ⟨ModifiedUtf8.encode_ne_zero text, length_unitsOfString text, hlength,
    ModifiedUtf8.decode_encode_append text, ModifiedUtf8.toText_encode text,
    fun before rest => ?_, fun image map options a offset hat hnew hroom => ?_⟩
  · rw [← Array.length_toList]
    exact hrecovers.runAt before rest
  · have hlong := length_unitsOfString_lt text
    have hne : (ofText text).encode.toList ≠ [] := List.ne_nil_of_length_pos (by omega)
    have hfits := hat.add_length_le hne
    have himage := image.size_data_lt
    refine ⟨by rw [hlength, Nat.mod_eq_of_lt (by omega)], ?_⟩
    rw [← Array.length_toList]
    exact Build.itemAt_of_recovers himage hrecovers (by decide) hne hat hnew hroom

/-- A text with a zero, a character of two bytes and a pair of surrogates. -/
def mixedText : String := "a\x00é😀"

/-- An image in which the mixed text stands behind four bytes and before half a character. -/
def mixedImage : Image :=
  ⟨#[0, 0, 0, 0] ++ (ofText mixedText).encode ++ #[0xC0], Build.plainHeader⟩

/-- The mixed text has five units, and its item takes thirteen bytes. -/
theorem ofText_recovers_mixedText : (unitsOfString mixedText).length = 5 ∧
    (ofText mixedText).encode.toList =
      [5, 0x61, 0xC0, 0x80, 0xC3, 0xA9, 0xED, 0xA0, 0xBD, 0xED, 0xB8, 0x80, 0] ∧
    ModifiedUtf8.decode (ModifiedUtf8.encode mixedText ++ [0x80]) =
      unitsOfString mixedText ++ [0xFFFD] ∧
    ∃ r a', Build.stringData 4 ⟨mixedImage.data, mixedImage.header, ⟨#[]⟩, .relayout⟩
        (.start Build.plainHeader) = .ok (r, a') ∧
      a'.graph.get? r = some (ofText mixedText) ∧
      (a'.layout.place r).size.toNat = (ofText mixedText).encode.size := by
  obtain ⟨-, -, -, hdecode, -, -, hbuild⟩ := ofText_recovers mixedText
  have hat : mixedImage.data.HoldsAt (4 : UInt32).toNat (ofText mixedText).encode.toList := by
    have hdata : mixedImage.data =
        ([0, 0, 0, 0] ++ (ofText mixedText).encode.toList ++ [0xC0]).toArray := by decide +kernel
    rw [hdata]
    exact Bytes.holdsAt_between [0, 0, 0, 0] _ [0xC0]
  exact ⟨by decide +kernel, by decide +kernel, hdecode [0x80],
    (hbuild mixedImage ⟨#[]⟩ .relayout _ 4 hat (by decide +kernel) (by decide)).2⟩

end StringData

/-! ## Debug info -/

namespace DebugInfo

/-- A stream is found again with its length wherever its bytes stand, and not where some of them are
missing, so no other stream begins with it or is its beginning. Put down in another image it is read
back as it is. The walk that gives the length comes to an outcome on all bytes: `Ends` is the loop
over the operations without a bound on their number. -/
theorem streamLength_delimits {data : Bytes} {p n : Nat} (h : streamLength data p = .ok n) :
    ∃ x : DebugInfo, x.bytes = data.extract p (p + n) ∧ x.bytes.size = n ∧
      decode.runAt data p = .ok (x, p + n) ∧
      (∀ (other : Bytes) (q : Nat), other.HoldsAt q x.bytes.toList →
        streamLength other q = .ok n) ∧
      (∀ (before : Bytes) (k : Nat), k < n →
        ∃ e, streamLength (before ++ data.extract p (p + k)) before.size = .error e) ∧
      (∀ (other : Bytes) (q m : Nat), streamLength other q = .ok m →
        x.bytes.toList <+: (other.extract q (q + m)).toList ∨
          (other.extract q (q + m)).toList <+: x.bytes.toList →
        other.extract q (q + m) = x.bytes) ∧
      (∀ (l : Layout) (item : Stream), Section.encode l .debugInfo x = .ok item →
        ∀ (image : Image) (map : MapList) (options : BuildOptions) (a : Assembly) (offset : UInt32),
        offset ≠ 0 → image.data.HoldsAt offset.toNat item.toBytes.toList →
        (a.known.get .debugInfo).get? (.ofOffset offset) = (none : Option (Ref .debugInfo)) →
        a.graph.count .debugInfo < 2 ^ 32 →
        ∃ r a', Build.debugInfo? offset ⟨image.data, image.header, map, options⟩ a =
            .ok (some r, a') ∧
          a'.graph.get? r = some x ∧ (a'.layout.place r).size.toNat = n) ∧
      ∀ (other : Bytes) (q : Nat) (outcome : Except Error Nat), Ends other q outcome ↔
        ((skipOperations (other.size - q)).runAt other q).map Prod.snd = outcome := by
  have hsize := (recovers_of_streamLength h).1
  have hcomplete := complete_of_streamLength h
  have hrecovers := decode_recovers hcomplete
  refine ⟨⟨data.extract p (p + n)⟩, rfl, hsize, ?_, fun _ _ => streamLength_of_holdsAt h,
    fun before k hk => streamLength_of_cut h hk before, fun other q m hm hbegins => ?_,
    fun l item hitem image map options a offset hzero hat hnew hroom => ?_, fun _ _ _ => ends_iff⟩
  · have hread := hrecovers data p (Bytes.holdsAt_extract data p (p + n))
    rwa [Array.length_toList, hsize] at hread
  · have hcomplete' := complete_of_streamLength hm
    rcases hbegins with hbegins | hbegins
    · exact congrArg bytes (hcomplete.eq_of_begins hcomplete' hbegins).symm
    · exact congrArg bytes (hcomplete'.eq_of_begins hcomplete hbegins)
  · cases hitem
    rw [Stream.toBytes_ofBytes] at hat
    have hne : (data.extract p (p + n)).toList ≠ [] :=
      List.ne_nil_of_length_pos (by rw [Array.length_toList]; exact hcomplete.size_pos)
    obtain ⟨r, a', hrun, hget, hplace⟩ : ∃ r a', Build.itemAt .debugInfo offset
          (Reading.decode decode) ⟨image.data, image.header, map, options⟩ a = .ok (r, a') ∧
        a'.graph.get? r = some ⟨data.extract p (p + n)⟩ ∧
        (a'.layout.place r).size.toNat = (data.extract p (p + n)).toList.length :=
      Build.itemAt_of_recovers image.size_data_lt hrecovers (by decide) hne hat hnew hroom
    refine ⟨r, a', ?_, hget, by rw [hplace, Array.length_toList, hsize]⟩
    rw [Build.debugInfo?, Build.itemAt?, if_neg (by simpa using hzero), Build.run_bind, hrun]
    rfl

/-- A stream behind two bytes and before one: the name of one parameter, a local variable with all
its operands, a step back by one line, a file, and an operation without operands. -/
def localStream : Bytes :=
  #[9, 9, 5, 1, 0x81, 1, 4, 0, 1, 2, 3, 2, 0x7F, 9, 1, 0x0A, 0, 9]

/-- An image in which the stream stands behind four bytes. -/
def localImage : Image :=
  ⟨#[0, 0, 0, 0] ++ localStream.extract 2 17 ++ #[9], Build.plainHeader⟩

/-- The stream takes fifteen bytes, which are taken over into another image. -/
theorem streamLength_delimits_localStream : streamLength localStream 2 = .ok 15 ∧
    (∃ e, streamLength (#[7] ++ localStream.extract 2 16) 1 = .error e) ∧
    ∃ r a' x, Build.debugInfo? 4 ⟨localImage.data, localImage.header, ⟨#[]⟩, .relayout⟩
        (.start Build.plainHeader) = .ok (some r, a') ∧
      a'.graph.get? r = some x ∧ x.bytes = localStream.extract 2 17 ∧
      (a'.layout.place r).size.toNat = 15 := by
  have hlength : streamLength localStream 2 = .ok 15 := by decide +kernel
  obtain ⟨x, hbytes, -, -, -, hcut, -, hcopy, -⟩ := streamLength_delimits hlength
  have hat : localImage.data.HoldsAt (4 : UInt32).toNat
      (Stream.ofBytes x.bytes).toBytes.toList := by
    have hdata : localImage.data =
        ([0, 0, 0, 0] ++ (localStream.extract 2 17).toList ++ [9]).toArray := by decide +kernel
    rw [Stream.toBytes_ofBytes, hbytes, hdata]
    exact Bytes.holdsAt_between [0, 0, 0, 0] _ [9]
  obtain ⟨r, a', hrun, hget, hsize⟩ := hcopy (.ofHeader Build.plainHeader) _ rfl localImage ⟨#[]⟩
    .relayout (.start Build.plainHeader) 4 (by decide) hat (by decide +kernel) (by decide)
  exact ⟨hlength, hcut #[7] 14 (by decide), r, a', x, hrun, hget, hbytes, hsize⟩

end DebugInfo

end DexGraph
