import DexGraph.Bytes.Basic

/-!
# Adler-32

Two sums run over the bytes: the sum of the bytes and the sum of its values so far, both modulo
65521. The remainders are taken only after every 5552 bytes, which is as long as the sums are
sure to fit in 32 bits.
-/

namespace DexGraph

namespace Adler32

/-- The largest prime below `2 ^ 16`. -/
def modulus : UInt32 := 65521

/-- How many bytes are added between two reductions. -/
def chunkSize : Nat := 5552

/-- The two running sums. -/
structure Sums where
  low : UInt32
  high : UInt32
  deriving DecidableEq, Repr

namespace Sums

/-- The sums of the empty byte string. -/
def start : Sums := ⟨1, 0⟩

/-- Takes in a byte without reducing. -/
def add (s : Sums) (b : UInt8) : Sums :=
  let low := s.low + b.toUInt32
  ⟨low, s.high + low⟩

/-- Reduces both sums. -/
def reduce (s : Sums) : Sums :=
  ⟨s.low % modulus, s.high % modulus⟩

/-- Takes in bytes one after the other and reduces once at the end. -/
def addChunk (s : Sums) (chunk : Bytes) : Sums :=
  (chunk.foldl add s).reduce

/-- The checksum of which these are the sums. -/
def value (s : Sums) : UInt32 :=
  (s.high <<< 16) ||| s.low

end Sums

/-- The chunk of a given number. -/
def chunk (data : Bytes) (i : Nat) : Bytes :=
  data.extract (i * chunkSize) ((i + 1) * chunkSize)

/-- How many chunks a byte string has; the last one may be short. -/
def chunkCount (data : Bytes) : Nat :=
  (data.size + chunkSize - 1) / chunkSize

end Adler32

/-- The Adler-32 checksum of a byte string. -/
def adler32 (data : Bytes) : UInt32 :=
  ((Adler32.chunkCount data).fold (fun i _ sums => sums.addChunk (Adler32.chunk data i))
    Adler32.Sums.start).value

end DexGraph
