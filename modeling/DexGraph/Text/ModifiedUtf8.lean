import DexGraph.Text.Units

/-!
# Modified UTF-8

The strings of an image are UTF-16 units, each written on its own: the units `1` to `0x7F` in one
byte, the unit `0` and those below `0x800` in two, all others in three. So no byte of a string is
zero, and a pair of surrogates takes six bytes.
-/

namespace DexGraph.Text.ModifiedUtf8

/-- The continuation byte of the low six bits of a unit. -/
def continuation (u : UInt16) : UInt8 :=
  (0x80 : UInt8) ||| (u.toUInt8 &&& 0x3F)

/-- The bytes of a unit. -/
def encodeUnit (u : UInt16) : List UInt8 :=
  if u != 0 && u < 0x80 then [u.toUInt8]
  else if u < 0x800 then
    [(0xC0 : UInt8) ||| ((u >>> 6).toUInt8 &&& 0x1F), continuation u]
  else
    [(0xE0 : UInt8) ||| ((u >>> 12).toUInt8 &&& 0x0F), continuation (u >>> 6), continuation u]

/-- The unit of a first byte with the payload of the continuation bytes after it. -/
def join (bits : UInt16) (b : UInt8) : UInt16 :=
  (bits <<< 6) ||| (b &&& 0x3F).toUInt16

/-- The unit that starts with a byte, and how many of the following bytes belong to it. A byte
that does not start a whole unit is read as U+FFFD on its own. -/
def unitAt (b : UInt8) (rest : List UInt8) : UInt16 × Nat :=
  if b < 0x80 then (b.toUInt16, 0)
  else if b &&& 0xE0 == 0xC0 then
    match rest with
    | c :: _ => if isContinuation c then (join (b &&& 0x1F).toUInt16 c, 1) else (0xFFFD, 0)
    | [] => (0xFFFD, 0)
  else if b &&& 0xF0 == 0xE0 then
    match rest with
    | c :: d :: _ =>
      if isContinuation c && isContinuation d then
        (join (join (b &&& 0x0F).toUInt16 c) d, 2)
      else (0xFFFD, 0)
    | _ => (0xFFFD, 0)
  else (0xFFFD, 0)

/-- The units of a byte string. -/
def decode (bytes : List UInt8) : List UInt16 :=
  scan unitAt bytes

/-- The bytes of a string. -/
def encode (text : String) : List UInt8 :=
  (unitsOfString text).flatMap encodeUnit

/-- The text of a byte string; a surrogate that stands alone becomes U+FFFD. -/
def toText (bytes : List UInt8) : String :=
  stringOfUnits (decode bytes)

end DexGraph.Text.ModifiedUtf8
