import DexGraph.Bytes.Leb128

/-!
# Cursors

A cursor is a byte string in memory and a position in it. Its operations are decoders as a machine
carries them out: positions and lengths are 64-bit words, a sum or a difference of words has to be a
word, nothing is divided by zero, a range of bytes that is taken from memory has to lie inside, and
whatever has been changed when an operation fails stays changed. `Decoder` says of the same
operations what they read.

That a cursor is inside its byte string is not part of its type. Some operations look at the end of
the data before they move or take anything; others rely on the position that they find.
-/

namespace DexGraph

/-- A byte string in memory, the length of which is a word, and a position. -/
structure Cursor where
  data : Bytes
  size_lt : data.size < UInt64.size
  position : UInt64

namespace Cursor

/-- How an operation fails: it refuses, or it comes to a point where a machine has to stop, as at a
range that does not lie inside. -/
inductive Failure
  | refused (e : Error)
  | trap
  deriving DecidableEq, Repr

/-- An operation on a cursor. What it has changed before it fails stays changed. -/
abbrev Action (α : Type) : Type :=
  EStateM Failure Cursor α

/-- The number of bytes. -/
def length (c : Cursor) : UInt64 :=
  c.data.size.toUInt64

/-- Whether there are bytes left. -/
def hasMore (c : Cursor) : Bool :=
  c.position < c.length

/-- How many bytes are left; none if the position is past the end. -/
def remaining (c : Cursor) : UInt64 :=
  if c.position ≤ c.length then c.length - c.position else 0

/-- Fails with an error. -/
def refuse {α : Type} (e : Error) : Action α :=
  throw (.refused e)

/-- The sum of two words, if it is a word. -/
def sum? (a b : UInt64) : Option UInt64 :=
  if a.toNat + b.toNat < UInt64.size then some (a + b) else none

/-- The sum of two words, which has to be a word. -/
def sum (a b : UInt64) : Action UInt64 :=
  match sum? a b with
  | some s => pure s
  | none => throw .trap

/-- The difference of two words, which may not be below zero. -/
def difference (a b : UInt64) : Action UInt64 :=
  if b ≤ a then pure (a - b) else throw .trap

/-- The remainder of a division, which may not be by zero. -/
def remainder (a b : UInt64) : Action UInt64 :=
  if b = 0 then throw .trap else pure (a % b)

/-- The bytes from one position up to another, which have to lie inside. -/
def range (start stop : UInt64) : Action Bytes := do
  let c ← get
  if start ≤ stop ∧ stop ≤ c.length then return c.data.extract start.toNat stop.toNat
  else throw .trap

/-- Puts the cursor at a position, whatever it is. -/
def moveTo (position : UInt64) : Action Unit :=
  modify fun c => { c with position := position }

/-! ## Moving -/

/-- Goes to a position, at most to the end. -/
def seek (target : UInt64) : Action Unit := do
  if target > (← get).length then refuse .outOfBounds
  else moveTo target

/-- Passes over some bytes. -/
def advance (count : UInt64) : Action Unit := do
  let c ← get
  match sum? c.position count with
  | some stop => if stop ≤ c.length then moveTo stop else refuse .outOfBounds
  | none => refuse .outOfBounds

/-- Goes to the next position that is a multiple of `alignment`. -/
def align (alignment : UInt64) : Action Unit := do
  let past ← remainder (← get).position alignment
  let padding ← remainder (← difference alignment past) alignment
  advance padding

/-! ## Reading -/

/-- The next byte, which is not passed over. -/
def peek : Action UInt8 := do
  let c ← get
  match c.data[c.position.toNat]? with
  | some b => return b
  | none => refuse .outOfBounds

/-- The next bytes, as many as a number takes. -/
def field (width : UInt64) : Action Bytes := do
  let c ← get
  match sum? c.position width with
  | none => refuse .outOfBounds
  | some stop =>
    if stop > c.length then refuse .outOfBounds
    else
      let part ← range c.position stop
      if part.size = width.toNat then
        moveTo stop
        return part
      else refuse .outOfBounds

/-- The number in the next `width` bytes. -/
def number (width : UInt64) : Action Nat := do
  return LittleEndian.decode (← field width).toList

/-- The number of which the next `width` bytes are the two's complement. -/
def signedNumber (width : UInt64) : Action Int := do
  return LittleEndian.signed width.toNat (← number width)

/-- Goes on with a number that starts at the cursor: `index` groups of it have been read, which
give `bits`, at most `left` are still to come, and the next stands at `next`. The cursor is moved
behind the last group at once. The result is the bits of all groups and their number. -/
def groups (unterminated : Nat → Defect) :
    (left index : Nat) → (next : UInt64) → (bits : UInt32) → Action (UInt32 × Nat)
  | 0, _, _, _ => do refuse (.malformed (unterminated (← get).position.toNat))
  | left + 1, index, next, bits => do
    match (← get).data[next.toNat]? with
    | none => refuse .outOfBounds
    | some b =>
      let next ← sum next 1
      let bits := bits ||| ((b &&& 0x7F).toUInt32 <<< (7 * index).toUInt32)
      if Leb128.isLast b then
        moveTo next
        return (bits, index + 1)
      else groups unterminated left (index + 1) next bits

/-- The next unsigned LEB128 number. -/
def unsignedLeb : Action UInt32 := do
  let (bits, _) ← groups .unterminatedUnsigned Leb128.maxGroups 0 (← get).position 0
  return bits

/-- The number of which the bits of `count` groups are the two's complement. -/
def signExtend (bits : UInt32) (count : Nat) : Int32 :=
  let used := 7 * count
  if used < 32 then
    let shift := 32 - used
    (bits <<< shift.toUInt32).toInt32 >>> Int32.ofNat shift
  else bits.toInt32

/-- The next signed LEB128 number. -/
def signedLeb : Action Int32 := do
  let (bits, count) ← groups .unterminatedSigned Leb128.maxGroups 0 (← get).position 0
  return signExtend bits count

/-- The next unsigned LEB128 number less one; zero stands for minus one. -/
def unsignedLebMinusOne : Action Int32 := do
  return (← unsignedLeb).toInt32 - 1

/-- The next `length` bytes. -/
def bytes (length : UInt64) : Action Bytes := do
  let start := (← get).position
  advance length
  range start (← get).position

/-- The bytes before the next zero byte, which is passed over. -/
def cstring : Action Bytes := do
  let c ← get
  let start := c.position
  let rest ← range start c.length
  match rest.findIdx? (· == 0) with
  | none => refuse .outOfBounds
  | some length =>
    let stop ← sum start length.toUInt64
    moveTo (← sum stop 1)
    range start stop

/-! ## Operations in sequence -/

/-- The width of a number. -/
inductive Width
  | one
  | two
  | four
  | eight
  deriving DecidableEq, Repr

/-- The width in bytes. -/
def Width.bytes : Width → UInt64
  | one => 1
  | two => 2
  | four => 4
  | eight => 8

/-- An operation with its argument. An alignment is a power of two and given by its exponent. -/
inductive Step
  | seek (target : UInt64)
  | advance (count : UInt64)
  | align (exponent : Fin 64)
  | peek
  | number (width : Width)
  | signedNumber (width : Width)
  | unsignedLeb
  | signedLeb
  | unsignedLebMinusOne
  | bytes (length : UInt64)
  | cstring
  deriving DecidableEq, Repr

/-- What an operation gives. -/
def Step.Result : Step → Type
  | seek _ | advance _ | align _ => Unit
  | peek => UInt8
  | number _ => Nat
  | signedNumber _ => Int
  | unsignedLeb => UInt32
  | signedLeb | unsignedLebMinusOne => Int32
  | bytes _ | cstring => Bytes

/-- Performs an operation. -/
def perform : (step : Step) → Action step.Result
  | .seek target => seek target
  | .advance count => advance count
  | .align exponent => align (1 <<< exponent.val).toUInt64
  | .peek => peek
  | .number width => number width.bytes
  | .signedNumber width => signedNumber width.bytes
  | .unsignedLeb => unsignedLeb
  | .signedLeb => signedLeb
  | .unsignedLebMinusOne => unsignedLebMinusOne
  | .bytes length => bytes length
  | .cstring => cstring

/-- The cursor as an operation leaves it, also one that fails. -/
def after (c : Cursor) (step : Step) : Cursor :=
  match perform step c with
  | .ok _ c => c
  | .error _ c => c

/-- The cursor as operations leave it that are performed one after the other. -/
def run (c : Cursor) (steps : List Step) : Cursor :=
  steps.foldl after c

/-! ## Setting out -/

/-- The cursor at the beginning of a byte string. -/
def atStart (data : Bytes) (h : data.size < UInt64.size) : Cursor :=
  ⟨data, h, 0⟩

/-- The cursor at a position of a byte string, at most at its end. -/
def atPosition (data : Bytes) (h : data.size < UInt64.size) (position : UInt64) :
    Except Failure Cursor :=
  match seek position (atStart data h) with
  | .ok () c => .ok c
  | .error e _ => .error e

end Cursor

end DexGraph
