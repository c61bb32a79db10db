import DexGraph.Bytes.Decoder

/-!
# LEB128 numbers

A number is written in groups of seven bits, the lowest first; each byte but the last has its
high bit set. A 32-bit number takes at most five groups, and the bits of a fifth group that do
not fit are dropped. A signed number repeats its sign in the bits above its last group.
-/

namespace DexGraph

namespace Leb128

/-- The number of groups within which a 32-bit number ends. -/
def maxGroups : Nat := 5

/-- Whether a byte is the last of its number. -/
def isLast (b : UInt8) : Bool :=
  b &&& 0x80 == 0

/-- The unsigned number of a sequence of groups. -/
def unsigned : List UInt8 → UInt32
  | [] => 0
  | b :: rest => (b &&& 0x7F).toUInt32 ||| (unsigned rest <<< 7)

/-- The signed number of a sequence of groups: the highest bit of the last one is the sign. -/
def signed (groups : List UInt8) : Int32 :=
  let used := 7 * groups.length
  let value := unsigned groups
  if used < 32 then
    let shift := 32 - used
    (value <<< shift.toUInt32).toInt32 >>> Int32.ofNat shift
  else value.toInt32

/-- At most `limit` groups of an unsigned number; all of them if the limit is `maxGroups`. -/
def unsignedGroups : (limit : Nat) → UInt32 → List UInt8
  | 0, _ => []
  | limit + 1, value =>
    if value < 0x80 then [value.toUInt8]
    else (value.toUInt8 ||| 0x80) :: unsignedGroups limit (value >>> 7)

/-- At most `limit` groups of a signed number; all of them if the limit is `maxGroups`. -/
def signedGroups : (limit : Nat) → Int32 → List UInt8
  | 0, _ => []
  | limit + 1, value =>
    let group := value.toUInt32.toUInt8 &&& 0x7F
    let rest := value >>> 7
    if (rest == 0 && group &&& 0x40 == 0) || (rest == -1 && group &&& 0x40 != 0) then [group]
    else (group ||| 0x80) :: signedGroups limit rest

/-- The shortest form of an unsigned number. -/
def encodeUnsigned (value : UInt32) : Bytes :=
  (unsignedGroups maxGroups value).toArray

/-- The shortest form of a signed number. -/
def encodeSigned (value : Int32) : Bytes :=
  (signedGroups maxGroups value).toArray

/-- The length of the shortest form of an unsigned number: a seventh of its bits, rounded up. -/
def unsignedSize (value : UInt32) : Nat :=
  ((value ||| 1).toNat.log2 + 1 + 6) / 7

/-- The length of the shortest form of a signed number. -/
def signedSize (value : Int32) : Nat :=
  (encodeSigned value).size

end Leb128

namespace Decoder

/-- The groups of the next number; fails as stated if the last of them is not among the next
`limit` bytes. -/
def groups (unterminated : Error) : (limit : Nat) → Decoder (List UInt8)
  | 0 => fail unterminated
  | limit + 1 => do
    let b ← byte
    if Leb128.isLast b then return [b]
    else return b :: (← groups unterminated limit)

/-- The next unsigned LEB128 number. -/
def unsignedLeb : Decoder UInt32 := do
  let start ← position
  return Leb128.unsigned (← groups (.malformed (.unterminatedUnsigned start)) Leb128.maxGroups)

/-- The next signed LEB128 number. -/
def signedLeb : Decoder Int32 := do
  let start ← position
  return Leb128.signed (← groups (.malformed (.unterminatedSigned start)) Leb128.maxGroups)

/-- The next unsigned LEB128 number less one; zero stands for minus one. -/
def unsignedLebMinusOne : Decoder Int32 := do
  return (← unsignedLeb).toInt32 - 1

end Decoder

end DexGraph
