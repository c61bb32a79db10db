import DexGraph.Bytes.Basic
import DexGraph.Error

/-!
# Output files

An output file has a fixed size from the start and is zero where nothing has been stored. It is
kept only if it is finalized; otherwise it is removed when it is closed.
-/

namespace DexGraph

/-- A file of fixed size that is being filled. -/
structure OutputFile where
  bytes : Bytes
  deriving DecidableEq, Repr

namespace OutputFile

/-- Creates a file of the given size, which is possible only in a directory that exists. -/
def create (directoryExists : Bool) (size : Nat) : Except Error OutputFile :=
  if directoryExists then .ok ⟨Array.replicate size 0⟩ else .error (.writeFailed .cannotCreate)

/-- The size of the file. -/
def size (f : OutputFile) : Nat :=
  f.bytes.size

/-- Stores bytes at an offset, all of them or none. -/
def writeAt (f : OutputFile) (offset : Nat) (bytes : Bytes) : Except Error OutputFile :=
  if offset + bytes.size ≤ f.size then .ok ⟨f.bytes.overlay offset bytes⟩
  else .error (.writeFailed (.pastEnd offset bytes.size f.size))

/-- Closes the file. The result is what is found in its place afterwards. -/
def close (f : OutputFile) (finalized : Bool) : Option Bytes :=
  if finalized then some f.bytes else none

end OutputFile

end DexGraph
