/-!
# Access flags

The flags of classes, fields and methods are a 32-bit set. Some bits mean one thing on a field
and another on a method, so two flags may share a bit. Bits without a name are kept.
-/

namespace DexGraph

/-- A set of access flags. -/
structure AccessFlags where
  bits : UInt32
  deriving DecidableEq, Repr, Inhabited

namespace AccessFlags

/-- Whether every bit of `flag` is set. -/
def contains (flags flag : AccessFlags) : Bool :=
  flags.bits &&& flag.bits == flag.bits

/-- The flag of a method whose body lies outside the image. -/
def native : AccessFlags := ⟨0x0100⟩

/-- The named flags in the order of their bits. -/
def named : List (String × AccessFlags) :=
  [("PUBLIC", ⟨0x0001⟩), ("PRIVATE", ⟨0x0002⟩), ("PROTECTED", ⟨0x0004⟩), ("STATIC", ⟨0x0008⟩),
    ("FINAL", ⟨0x0010⟩), ("SYNCHRONIZED", ⟨0x0020⟩), ("VOLATILE", ⟨0x0040⟩), ("BRIDGE", ⟨0x0040⟩),
    ("TRANSIENT", ⟨0x0080⟩), ("VARARGS", ⟨0x0080⟩), ("NATIVE", native), ("INTERFACE", ⟨0x0200⟩),
    ("ABSTRACT", ⟨0x0400⟩), ("STRICT", ⟨0x0800⟩), ("SYNTHETIC", ⟨0x1000⟩),
    ("ANNOTATION", ⟨0x2000⟩), ("ENUM", ⟨0x4000⟩), ("CONSTRUCTOR", ⟨0x10000⟩),
    ("DECLARED_SYNCHRONIZED", ⟨0x20000⟩)]

/-- The names of the flags that are set. -/
def names (flags : AccessFlags) : List String :=
  (named.filter fun entry => flags.contains entry.2).map (·.1)

end AccessFlags

end DexGraph
