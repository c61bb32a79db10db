import DexGraph.Format.Row

/-!
# The map list

The map list names the sections of an image, each with its kind, the number of its items and the
offset of the first. It starts with the number of its entries.
-/

namespace DexGraph

/-- An entry of the map list. The code may be unknown. -/
structure MapEntry where
  code : UInt16
  size : UInt32
  offset : UInt32
  deriving DecidableEq, Repr

instance : Row MapEntry where
  size := 12
  decode := do
    let code ← Decoder.halfWord
    let _ ← Decoder.halfWord
    return ⟨code, ← Decoder.word, ← Decoder.word⟩
  fields entry :=
    [.ofHalfWord entry.code, .ofHalfWord 0, .ofWord entry.size, .ofWord entry.offset]

namespace MapEntry

/-- The kind of section that an entry names, if its code is known. -/
def kind? (entry : MapEntry) : Option MapItemType :=
  MapItemType.ofCode? entry.code

end MapEntry

/-- The map list of an image. -/
structure MapList where
  entries : Array MapEntry
  deriving DecidableEq, Repr

namespace MapList

/-- Reads the map list at an offset. The number of entries is checked before any of them is
read. -/
def read (data : Bytes) (offset : UInt32) : Except Error MapList := do
  let (count, start) ← Decoder.word.runAt data offset.toNat
  let available := (data.size - start) / Row.size MapEntry
  if count.toNat > available then
    throw (.malformed (.mapListCount offset count.toNat available))
  let (entries, _) ← (gather count.toNat (Row.decode : Decoder MapEntry)).runAt data start
  return ⟨entries⟩

/-- The first entry of a kind. -/
def find? (list : MapList) (kind : MapItemType) : Option MapEntry :=
  list.entries.find? fun entry => entry.code == kind.code

/-- The size in bytes of a map list with the given number of entries. -/
def byteSize (count : Nat) : Nat :=
  4 + count * Row.size MapEntry

/-- The bytes of a map list. -/
def encode (list : MapList) : Except Error Bytes := do
  let count ← toWord list.entries.size
  return list.entries.foldl (fun bytes entry => bytes ++ Row.encode entry) (Bytes.ofWord count)

end MapList

end DexGraph
