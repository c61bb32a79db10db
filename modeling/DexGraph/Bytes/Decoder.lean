import DexGraph.Bytes.LittleEndian
import DexGraph.Error
import DexGraph.Gather

/-!
# Decoders

A decoder reads a value from a byte string at a position and says where it stopped, or fails.
A decoder that fails gives no position, so whoever ran it still stands where it started. The
primitive decoders never go past the end of the byte string.
-/

namespace DexGraph

/-- A way to read a value from a byte string: from a start position to the value and the position
after it. -/
abbrev Decoder (α : Type) : Type :=
  ReaderT Bytes (StateT Nat (Except Error)) α

namespace Decoder

variable {α : Type}

/-- Runs a decoder on a byte string from a position on. -/
def runAt (d : Decoder α) (data : Bytes) (position : Nat) : Except Error (α × Nat) :=
  d data position

/-- Runs a decoder at an offset, which moves behind what is read; a decoder that fails leaves it
where it is. -/
def attempt (d : Decoder α) (data : Bytes) (offset : Nat) : Except Error α × Nat :=
  match d.runAt data offset with
  | .ok (a, stop) => (.ok a, stop)
  | .error e => (.error e, offset)

/-- Fails. -/
def fail (e : Error) : Decoder α :=
  fun _ _ => .error e

/-- Takes an outcome for which no bytes are needed. -/
def ofExcept (outcome : Except Error α) : Decoder α :=
  fun _ position => outcome.map (·, position)

/-- The current position. -/
def position : Decoder Nat :=
  fun _ position => .ok (position, position)

/-- How many bytes are left. -/
def remaining : Decoder Nat :=
  fun data position => .ok (data.size - position, position)

/-- Goes to a position, at most to the end. -/
def seek (target : Nat) : Decoder Unit :=
  fun data _ => if target ≤ data.size then .ok ((), target) else .error .outOfBounds

/-- Runs a decoder at another position, without moving from the current one. -/
def elsewhere (target : Nat) (d : Decoder α) : Decoder α := do
  let here ← position
  seek target
  let a ← d
  seek here
  return a

/-- Passes over some bytes. -/
def advance (step : Nat) : Decoder Unit :=
  fun data position =>
    if position + step ≤ data.size then .ok ((), position + step) else .error .outOfBounds

/-- Goes to the next position that is a multiple of `alignment`. -/
def align (alignment : Nat) : Decoder Unit := do
  advance ((alignment - (← position) % alignment) % alignment)

/-- The next byte, which is not passed over. -/
def peek : Decoder UInt8 :=
  fun data position =>
    match data[position]? with
    | some b => .ok (b, position)
    | none => .error .outOfBounds

/-- The next `length` bytes. -/
def bytes (length : Nat) : Decoder Bytes :=
  fun data position =>
    match data.slice? position length with
    | some part => .ok (part, position + length)
    | none => .error .outOfBounds

/-- The number in the next `width` bytes. -/
def number (width : Nat) : Decoder Nat := do
  return LittleEndian.decode (← bytes width).toList

/-- The number of which the next `width` bytes are the two's complement. -/
def signedNumber (width : Nat) : Decoder Int := do
  return LittleEndian.signed width (← number width)

/-- The next byte. -/
def byte : Decoder UInt8 :=
  fun data position =>
    match data[position]? with
    | some b => .ok (b, position + 1)
    | none => .error .outOfBounds

/-- The next 16-bit word. -/
def halfWord : Decoder UInt16 := do
  return (← number 2).toUInt16

/-- The next 32-bit word. -/
def word : Decoder UInt32 := do
  return (← number 4).toUInt32

/-- The next 64-bit word. -/
def longWord : Decoder UInt64 := do
  return (← number 8).toUInt64

/-- The next 16-bit words. -/
def halfWords (count : Nat) : Decoder (Array UInt16) :=
  gather count halfWord

/-- The position of the first zero among `count` bytes from a position on. -/
def zeroAmong? (data : Bytes) : (count position : Nat) → Option Nat
  | 0, _ => none
  | count + 1, position =>
    if data[position]? == some 0 then some position else zeroAmong? data count (position + 1)

/-- The bytes before the next zero byte, which is passed over. -/
def cstring : Decoder Bytes :=
  fun data position =>
    match zeroAmong? data (data.size - position) position with
    | some stop => .ok (data.extract position stop, stop + 1)
    | none => .error .outOfBounds

end Decoder

end DexGraph
