import DexGraph.Bytes.Basic

/-!
# SHA-1

The message is padded to blocks of 64 bytes, and each block is mixed into a state of five words
in eighty rounds. Words are read and written with their highest byte first.
-/

namespace DexGraph

namespace Sha1

/-- The five words of the state. -/
structure State where
  a : UInt32
  b : UInt32
  c : UInt32
  d : UInt32
  e : UInt32
  deriving DecidableEq, Repr

/-- The state before the first block. -/
def State.start : State :=
  ⟨0x67452301, 0xEFCDAB89, 0x98BADCFE, 0x10325476, 0xC3D2E1F0⟩

/-- The size of a block in bytes. -/
def blockSize : Nat := 64

/-- The bits of a word moved up, those that fall out at the top coming in at the bottom. -/
def rotate (w : UInt32) (amount : UInt32) : UInt32 :=
  (w <<< amount) ||| (w >>> (32 - amount))

/-- The lowest `width` bytes of a number, the highest first. -/
def bigEndian : (width : Nat) → Nat → List UInt8
  | 0, _ => []
  | width + 1, n => bigEndian width (n / 256) ++ [n.toUInt8]

/-- The word at a position. -/
def wordAt (data : Bytes) (position : Nat) : UInt32 :=
  ((data.getD position 0).toUInt32 <<< 24) ||| ((data.getD (position + 1) 0).toUInt32 <<< 16) |||
    ((data.getD (position + 2) 0).toUInt32 <<< 8) ||| (data.getD (position + 3) 0).toUInt32

/-- A message with its padding: a one bit, zeros up to the last eight bytes of a block, and the
length in bits. -/
def pad (message : Bytes) : Bytes :=
  let zeros := (2 * blockSize - 9 - message.size % blockSize) % blockSize
  message ++ #[0x80] ++ Array.replicate zeros 0 ++ (bigEndian 8 (8 * message.size)).toArray

/-- The eighty words that the rounds of a block use. -/
def schedule (data : Bytes) (block : Nat) : Array UInt32 :=
  let first := Array.ofFn fun i : Fin 16 => wordAt data (block * blockSize + 4 * i)
  (80 - 16).fold (fun i _ words =>
    words.push (rotate (words.getD (i + 13) 0 ^^^ words.getD (i + 8) 0 ^^^
      words.getD (i + 2) 0 ^^^ words.getD i 0) 1)) first

/-- The mixing function and the constant of a round. -/
def mixing (round : Nat) (b c d : UInt32) : UInt32 × UInt32 :=
  if round < 20 then ((b &&& c) ||| (~~~b &&& d), 0x5A827999)
  else if round < 40 then (b ^^^ c ^^^ d, 0x6ED9EBA1)
  else if round < 60 then ((b &&& c) ||| (b &&& d) ||| (c &&& d), 0x8F1BBCDC)
  else (b ^^^ c ^^^ d, 0xCA62C1D6)

/-- One round with its word of the schedule. -/
def State.round (s : State) (i : Nat) (w : UInt32) : State :=
  let (f, k) := mixing i s.b s.c s.d
  ⟨rotate s.a 5 + f + s.e + k + w, s.a, rotate s.b 30, s.c, s.d⟩

/-- Mixes in the block of a given number. -/
def State.addBlock (s : State) (data : Bytes) (block : Nat) : State :=
  let words := schedule data block
  let t := words.size.fold (fun i h t => t.round i words[i]) s
  ⟨s.a + t.a, s.b + t.b, s.c + t.c, s.d + t.d, s.e + t.e⟩

/-- The bytes of a state. -/
def State.digest (s : State) : Vector UInt8 20 :=
  Vector.ofFn fun i : Fin 20 =>
    let w := match i.val / 4 with
      | 0 => s.a
      | 1 => s.b
      | 2 => s.c
      | 3 => s.d
      | _ => s.e
    (w >>> (24 - 8 * (i.val % 4)).toUInt32).toUInt8

end Sha1

/-- The SHA-1 digest of a byte string. -/
def sha1 (message : Bytes) : Vector UInt8 20 :=
  let data := Sha1.pad message
  ((data.size / Sha1.blockSize).fold (fun i _ state => state.addBlock data i)
    Sha1.State.start).digest

end DexGraph
